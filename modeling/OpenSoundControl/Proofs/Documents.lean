import OpenSoundControl.Json.Reading
import OpenSoundControl.Proofs.Scanning

/-!
JSON values written as text and read again. A value comes back as it was, but for the digits that
the text of a decimal adds: first the scanner finds its tokens, then the reader puts them together.
-/

namespace OpenSoundControl.Json

mutual

def tokens : Json → List Token
  | .scalar value => [.scalar value]
  | .array items => .openArray :: (itemTokens [] items ++ [.closeArray])
  | .object fields => .openObject :: (fieldTokens [] fields ++ [.closeObject])

def itemTokens (separator : List Token) : List Json → List Token
  | [] => []
  | item :: rest => separator ++ (item.tokens ++ itemTokens [.comma] rest)

def fieldTokens (separator : List Token) : List (String × Json) → List Token
  | [] => []
  | (name, value) :: rest =>
      separator ++ (.scalar (.string name) :: .colon ::
        (value.tokens ++ fieldTokens [.comma] rest))

end

mutual

theorem layTokens_eq : ∀ (json : Json) (done : List Token),
    layTokens done json = json.tokens.reverse ++ done
  | .scalar value, done => by simp [layTokens, tokens]
  | .array items, done => by simp [layTokens, tokens, layItems_eq items]
  | .object fields, done => by simp [layTokens, tokens, layFields_eq fields]

theorem layItems_eq : ∀ (items : List Json) (separator done : List Token),
    layItems separator done items = (itemTokens separator.reverse items).reverse ++ done
  | [], separator, done => by simp [layItems, itemTokens]
  | item :: rest, separator, done => by
      simp [layItems, itemTokens, layTokens_eq item, layItems_eq rest]

theorem layFields_eq : ∀ (fields : List (String × Json)) (separator done : List Token),
    layFields separator done fields = (fieldTokens separator.reverse fields).reverse ++ done
  | [], separator, done => by simp [layFields, fieldTokens]
  | (name, value) :: rest, separator, done => by
      simp [layFields, fieldTokens, layTokens_eq value, layFields_eq rest]

end

theorem tokensOf_eq (json : Json) : tokensOf json = json.tokens := by
  simp [tokensOf, layTokens_eq]

mutual

def Distinct : Json → Prop
  | .scalar _ => True
  | .array items => DistinctItems items
  | .object fields => (fields.map Prod.fst).Nodup ∧ DistinctFields fields

def DistinctItems : List Json → Prop
  | [] => True
  | item :: rest => item.Distinct ∧ DistinctItems rest

def DistinctFields : List (String × Json) → Prop
  | [] => True
  | (_, value) :: rest => value.Distinct ∧ DistinctFields rest

end

theorem foldlM_firstItem (json : Json) (later : List Token) (frames : List Frame) :
    (json.tokens ++ later).foldlM Reading.step ⟨.firstItem, frames⟩ =
      (json.tokens ++ later).foldlM Reading.step ⟨.value, frames⟩ := by
  cases json <;> simp [tokens, Reading.step]

theorem withField_of_new {fields : List (String × Json)} {name : String}
    (new : name ∉ fields.map Prod.fst) (json : Json) :
    withField fields name json = (name, json) :: fields := by
  rw [withField, List.filter_eq_self.mpr]
  intro field member
  simp only [bne_iff_ne, ne_eq]
  rintro rfl
  exact new (List.mem_map_of_mem member)

theorem foldlM_colon (later : List Token) (frames : List Frame) :
    (.colon :: later).foldlM Reading.step ⟨.colon, frames⟩ =
      later.foldlM Reading.step ⟨.value, frames⟩ := by
  simp [Reading.step]

mutual

theorem foldlM_tokens : ∀ (json : Json) (frames : List Frame), json.Distinct →
    json.tokens.foldlM Reading.step ⟨.value, frames⟩ = some (Reading.place json frames)
  | .scalar value, frames, _ => by simp [tokens, Reading.step, Reading.value]
  | .array [], frames, _ => by
      simp [tokens, itemTokens, Reading.step, Reading.value, Reading.close]
  | .array (item :: rest), frames, distinct => by
      have opened : Reading.step ⟨.value, frames⟩ .openArray =
          some ⟨.firstItem, .array [] :: frames⟩ := rfl
      have first := foldlM_tokens item (.array [] :: frames) distinct.1
      have later := foldlM_items rest [item] frames distinct.2
      rw [tokens, List.foldlM_cons, opened, itemTokens, List.nil_append, List.append_assoc]
      simp only [Option.bind_eq_bind, Option.bind_some]
      rw [foldlM_firstItem, foldlM_append_of_eq first, Reading.place, foldlM_append_of_eq later]
      simp [Reading.step, Reading.close]
  | .object [], frames, _ => by
      simp [tokens, fieldTokens, Reading.step, Reading.value, Reading.close]
  | .object ((name, value) :: rest), frames, distinct => by
      have opened : Reading.step ⟨.value, frames⟩ .openObject =
          some ⟨.firstName, .object [] "" :: frames⟩ := rfl
      have named : Reading.step ⟨.firstName, .object [] "" :: frames⟩ (.scalar (.string name)) =
          some ⟨.colon, .object [] name :: frames⟩ := rfl
      have first := foldlM_tokens value (.object [] name :: frames) distinct.2.1
      have unique : ((rest.reverse ++ [(name, value)]).map Prod.fst).Nodup := by
        rw [← List.reverse_cons, List.map_reverse]
        exact (List.reverse_perm _).nodup_iff.mpr distinct.1
      obtain ⟨last, later⟩ := foldlM_fields rest [(name, value)] name frames distinct.2.2 unique
      rw [tokens, List.foldlM_cons, opened, fieldTokens, List.nil_append, List.cons_append,
        List.cons_append, List.append_assoc, Option.bind_eq_bind, Option.bind_some,
        List.foldlM_cons, named, Option.bind_eq_bind, Option.bind_some, foldlM_colon,
        foldlM_append_of_eq first, Reading.place, withField_of_new (by simp),
        foldlM_append_of_eq later]
      simp [Reading.step, Reading.close]

theorem foldlM_items : ∀ (items done : List Json) (outer : List Frame), DistinctItems items →
    (itemTokens [.comma] items).foldlM Reading.step ⟨.following, .array done :: outer⟩ =
      some ⟨.following, .array (items.reverse ++ done) :: outer⟩
  | [], done, outer, _ => by simp [itemTokens]
  | item :: rest, done, outer, distinct => by
      have next : Reading.step ⟨.following, .array done :: outer⟩ .comma =
          some ⟨.value, .array done :: outer⟩ := rfl
      have first := foldlM_tokens item (.array done :: outer) distinct.1
      have later := foldlM_items rest (item :: done) outer distinct.2
      rw [itemTokens, List.singleton_append, List.foldlM_cons, next]
      simp only [Option.bind_eq_bind, Option.bind_some]
      rw [foldlM_append_of_eq first, Reading.place, later]
      simp

theorem foldlM_fields : ∀ (fields done : List (String × Json)) (name : String)
    (outer : List Frame), DistinctFields fields →
    ((fields.reverse ++ done).map Prod.fst).Nodup →
    ∃ last, (fieldTokens [.comma] fields).foldlM Reading.step
        ⟨.following, .object done name :: outer⟩ =
      some ⟨.following, .object (fields.reverse ++ done) last :: outer⟩
  | [], done, name, outer, _, _ => ⟨name, by simp [fieldTokens]⟩
  | (name, value) :: rest, done, before, outer, distinct, unique => by
      have next : Reading.step ⟨.following, .object done before :: outer⟩ .comma =
          some ⟨.name, .object done before :: outer⟩ := rfl
      have named : Reading.step ⟨.name, .object done before :: outer⟩ (.scalar (.string name)) =
          some ⟨.colon, .object done name :: outer⟩ := rfl
      have first := foldlM_tokens value (.object done name :: outer) distinct.1
      rw [List.reverse_cons, List.append_assoc, List.singleton_append] at unique
      have new : name ∉ done.map Prod.fst := by
        rw [List.map_append, List.nodup_append] at unique
        exact (List.nodup_cons.mp unique.2.1).1
      obtain ⟨last, later⟩ :=
        foldlM_fields rest ((name, value) :: done) name outer distinct.2 unique
      refine ⟨last, ?_⟩
      rw [fieldTokens, List.singleton_append, List.foldlM_cons, next, Option.bind_eq_bind,
        Option.bind_some, List.foldlM_cons, named, Option.bind_eq_bind, Option.bind_some,
        foldlM_colon, foldlM_append_of_eq first, Reading.place, withField_of_new new, later]
      simp

end

theorem ofTokens?_tokens {json : Json} (distinct : json.Distinct) :
    ofTokens? json.tokens = some json := by
  rw [ofTokens?, foldlM_tokens json [] distinct]
  rfl

mutual

def Readable : Json → Prop
  | .scalar value => LegibleScalar value
  | .array items => ReadableItems items
  | .object fields => ReadableFields fields

def ReadableItems : List Json → Prop
  | [] => True
  | item :: rest => item.Readable ∧ ReadableItems rest

def ReadableFields : List (String × Json) → Prop
  | [] => True
  | (_, value) :: rest => value.Readable ∧ ReadableFields rest

end

mutual

/-- What is read for a value that is written as text. -/
def reread : Json → Json
  | .scalar value => .scalar (rereadScalar value)
  | .array items => .array (rereadItems items)
  | .object fields => .object (rereadFields fields)

def rereadItems : List Json → List Json
  | [] => []
  | item :: rest => item.reread :: rereadItems rest

def rereadFields : List (String × Json) → List (String × Json)
  | [] => []
  | (name, value) :: rest => (name, value.reread) :: rereadFields rest

end

theorem names_rereadFields (fields : List (String × Json)) :
    (rereadFields fields).map Prod.fst = fields.map Prod.fst := by
  induction fields with
  | nil => rfl
  | cons field rest ih => simp [rereadFields, ih]

mutual

theorem distinct_reread : ∀ json : Json, json.Distinct → json.reread.Distinct
  | .scalar _, _ => trivial
  | .array items, distinct => distinct_rereadItems items distinct
  | .object fields, distinct => by
      refine ⟨?_, distinct_rereadFields fields distinct.2⟩
      rw [names_rereadFields]
      exact distinct.1

theorem distinct_rereadItems : ∀ items : List Json, DistinctItems items →
    DistinctItems (rereadItems items)
  | [], _ => trivial
  | item :: rest, distinct =>
      ⟨distinct_reread item distinct.1, distinct_rereadItems rest distinct.2⟩

theorem distinct_rereadFields : ∀ fields : List (String × Json), DistinctFields fields →
    DistinctFields (rereadFields fields)
  | [], _ => trivial
  | (_, value) :: rest, distinct =>
      ⟨distinct_reread value distinct.1, distinct_rereadFields rest distinct.2⟩

end

section Items

variable {α : Type} {form : α → Json}

theorem readableItems_map (readable : ∀ entry, (form entry).Readable) (entries : List α) :
    ReadableItems (entries.map form) := by
  induction entries with
  | nil => trivial
  | cons entry rest ih => exact ⟨readable entry, ih⟩

theorem distinctItems_map (distinct : ∀ entry, (form entry).Distinct) (entries : List α) :
    DistinctItems (entries.map form) := by
  induction entries with
  | nil => trivial
  | cons entry rest ih => exact ⟨distinct entry, ih⟩

theorem rereadItems_map (entries : List α) :
    rereadItems (entries.map form) = entries.map fun entry => (form entry).reread := by
  induction entries with
  | nil => rfl
  | cons entry rest ih => simp [rereadItems, ih]

end Items

structure Separates (separator : List Token) (scan : Scan) (tokens : List Token) : Prop where
  behind : scan.Behind tokens
  reached : (separator.flatMap Token.text).foldlM Scan.step scan =
    some ⟨.between, separator.reverse ++ tokens⟩

theorem separates_nil (tokens : List Token) : Separates [] ⟨.between, tokens⟩ tokens :=
  ⟨.between, rfl⟩

theorem separates_comma {scan : Scan} {tokens : List Token} (behind : scan.Behind tokens) :
    Separates [.comma] scan tokens := by
  refine ⟨behind, ?_⟩
  rw [List.flatMap_singleton]
  exact scan_punctuation behind rfl rfl

mutual

theorem scan_tokens : ∀ (json : Json) (found : List Token), json.Readable →
    ∃ next : Scan, (json.tokens.flatMap Token.text).foldlM Scan.step ⟨.between, found⟩ =
        some next ∧ next.Behind (json.reread.tokens.reverse ++ found)
  | .scalar value, found, readable => by
      simpa [tokens, reread, Token.text] using scan_scalar readable found
  | .array items, found, readable => by
      obtain ⟨middle, inside, behind⟩ :=
        scan_items items [] (.openArray :: found) _ readable (separates_nil _)
      refine ⟨_, ?_, .between⟩
      rw [tokens, List.flatMap_cons, foldlM_append_of_eq (scan_punctuation .between rfl rfl),
        List.flatMap_append, foldlM_append_of_eq inside, List.flatMap_singleton,
        scan_punctuation behind rfl rfl]
      simp [reread, tokens]
  | .object fields, found, readable => by
      obtain ⟨middle, inside, behind⟩ :=
        scan_fields fields [] (.openObject :: found) _ readable (separates_nil _)
      refine ⟨_, ?_, .between⟩
      rw [tokens, List.flatMap_cons, foldlM_append_of_eq (scan_punctuation .between rfl rfl),
        List.flatMap_append, foldlM_append_of_eq inside, List.flatMap_singleton,
        scan_punctuation behind rfl rfl]
      simp [reread, tokens]

theorem scan_items : ∀ (items : List Json) (separator found : List Token) (scan : Scan),
    ReadableItems items → Separates separator scan found →
    ∃ next : Scan, ((itemTokens separator items).flatMap Token.text).foldlM Scan.step scan =
        some next ∧ next.Behind ((itemTokens separator (rereadItems items)).reverse ++ found)
  | [], separator, found, scan, _, start => ⟨scan, by simp [itemTokens], start.behind⟩
  | item :: rest, separator, found, scan, readable, start => by
      obtain ⟨middle, first, behind⟩ := scan_tokens item (separator.reverse ++ found) readable.1
      obtain ⟨next, later, reached⟩ :=
        scan_items rest [.comma] _ middle readable.2 (separates_comma behind)
      refine ⟨next, ?_, ?_⟩
      · rw [itemTokens, List.flatMap_append, List.flatMap_append, foldlM_append_of_eq start.reached,
          foldlM_append_of_eq first, later]
      · simpa [itemTokens, rereadItems] using reached

theorem scan_fields : ∀ (fields : List (String × Json)) (separator found : List Token)
    (scan : Scan), ReadableFields fields → Separates separator scan found →
    ∃ next : Scan, ((fieldTokens separator fields).flatMap Token.text).foldlM Scan.step scan =
        some next ∧ next.Behind ((fieldTokens separator (rereadFields fields)).reverse ++ found)
  | [], separator, found, scan, _, start => ⟨scan, by simp [fieldTokens], start.behind⟩
  | (name, value) :: rest, separator, found, scan, readable, start => by
      have named : (Token.scalar (.string name)).text.foldlM Scan.step
          ⟨.between, separator.reverse ++ found⟩ =
          some ⟨.between, .scalar (.string name) :: (separator.reverse ++ found)⟩ :=
        scan_string .between name
      obtain ⟨middle, first, behind⟩ := scan_tokens value
        (.colon :: .scalar (.string name) :: (separator.reverse ++ found)) readable.1
      obtain ⟨next, later, reached⟩ :=
        scan_fields rest [.comma] _ middle readable.2 (separates_comma behind)
      refine ⟨next, ?_, ?_⟩
      · rw [fieldTokens, List.flatMap_append, foldlM_append_of_eq start.reached, List.flatMap_cons,
          foldlM_append_of_eq named, List.flatMap_cons,
          foldlM_append_of_eq (scan_punctuation .between rfl rfl), List.flatMap_append,
          foldlM_append_of_eq first, later]
      · simpa [fieldTokens, rereadFields] using reached

end

theorem tokens?_render {json : Json} (readable : json.Readable) :
    tokens? (render json).toList = some json.reread.tokens := by
  obtain ⟨next, reached, behind⟩ := scan_tokens json [] readable
  rw [render, tokensOf_eq, String.toList_ofList, tokens?, reached, Option.bind_some, behind.finish]
  simp

/-- The text of a value is read as the value, but for the digits that its decimals gain. -/
theorem parse?_render {json : Json} (readable : json.Readable) (distinct : json.Distinct) :
    parse? (render json) = some json.reread := by
  rw [parse?, tokens?_render readable, Option.bind_some,
    ofTokens?_tokens (distinct_reread json distinct)]

end OpenSoundControl.Json
