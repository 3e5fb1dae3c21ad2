import AliasTaint.Proofs.Json.Spelling

/-!
# What is written is read back

Reading accepts exactly the spellings of a value, and what is written is one of them.  So every
value is read back from what is written for it, whether or not it makes sense as a value of the
analysis, and two JSON values that are read stand for the same value exactly if the same is written
for both.
-/

namespace AliasTaint

/-! ## Lawful forms -/

/-- A form that reads exactly the spellings of each value, and writes one of them. -/
class LawfulJsonForm (α : Type) [JsonForm α] [JsonSpelling α] : Prop where
  decode?_eq_some_iff {json : Json} {value : α} : decode? json = some value ↔ Spells json value
  spells_encode (value : α) : Spells (encode value) value

namespace LawfulJsonForm

variable {α : Type} [JsonForm α] [JsonSpelling α] [LawfulJsonForm α]

theorem decode?_encode (value : α) : decode? (encode value) = some value :=
  decode?_eq_some_iff.mpr (spells_encode value)

theorem encode_inj {left right : α} : encode left = encode right ↔ left = right := by
  constructor
  · intro sameForm
    have readBack := decode?_encode left
    rw [sameForm, decode?_encode] at readBack
    exact (Option.some.inj readBack).symm
  · exact congrArg encode

end LawfulJsonForm

open LawfulJsonForm

namespace Json

/-! ## Lists -/

theorem mapM_eq_some_iff {α β : Type} {read : α → Option β} {items : List α} {values : List β} :
    items.mapM read = some values ↔
      List.Forall₂ (fun item value => read item = some value) items values := by
  induction items generalizing values with
  | nil =>
      simp [eq_comm]
  | cons item rest inductionHypothesis =>
      simp only [List.mapM_cons, Option.bind_eq_bind, Option.bind_eq_some_iff, Option.pure_def,
        Option.some.injEq, inductionHypothesis, List.forall₂_cons_left_iff]
      constructor
      · rintro ⟨value, isValue, others, areOthers, rfl⟩
        exact ⟨value, others, isValue, areOthers, rfl⟩
      · rintro ⟨value, others, isValue, areOthers, rfl⟩
        exact ⟨value, isValue, others, areOthers, rfl⟩

theorem exists_forall₂_and_iff {α β : Type} {Left Right : α → β → Prop} {items : List α} :
    (∃ values, List.Forall₂ Left items values ∧ List.Forall₂ Right items values) ↔
      ∀ item ∈ items, ∃ value, Left item value ∧ Right item value := by
  induction items with
  | nil =>
      simp
  | cons item rest inductionHypothesis =>
      rw [List.forall_mem_cons, ← inductionHypothesis]
      constructor
      · rintro ⟨_, allLeft, allRight⟩
        cases allLeft with
        | cons left lefts =>
            cases allRight with
            | cons right rights =>
                exact ⟨⟨_, left, right⟩, _, lefts, rights⟩
      · rintro ⟨⟨_, left, right⟩, _, lefts, rights⟩
        exact ⟨_, .cons left lefts, .cons right rights⟩

/-! ## Alternatives -/

theorem bareName?_eq_some_iff {json : Json} {name : String} :
    json.bareName? = some name ↔ json.IsBare name := by
  constructor
  · intro found
    unfold bareName? at found
    split at found
    · exact Or.inl (congrArg Json.string (Option.some.inj found))
    · exact Or.inr (by rw [Option.some.inj found]; rfl)
    · cases found
  · rintro (rfl | rfl)
    · rfl
    · rfl

theorem bare?_eq_some_iff {α : Type} {json : Json} {name : String} {value result : α} :
    json.bare? name value = some result ↔ json.IsBare name ∧ value = result := by
  simp [bare?, bareName?_eq_some_iff]

/-- An alternative without content has one name only. -/
theorem IsBare.bare?_of_ne {α : Type} {json : Json} {name other : String}
    (isBare : json.IsBare name) (differ : name ≠ other) (value : α) :
    json.bare? other value = none := by
  rw [← bareName?_eq_some_iff] at isBare
  simp [bare?, isBare, differ]

theorem bare?_tagged_of_ne {α : Type} {name other : String}
    (differ : name ≠ other) (content : Json) (value : α) :
    (tagged name content).bare? other value = none := by
  rw [Option.eq_none_iff_forall_ne_some]
  intro result found
  rcases (bare?_eq_some_iff.mp found).1 with isString | isTagged
  · cases isString
  · cases isTagged
    exact differ rfl

theorem content?_eq_some_iff {json content : Json} {name : String} :
    json.content? name = some content ↔ json = .tagged name content := by
  constructor
  · intro found
    unfold content? at found
    split at found
    · split at found
      · rename_i same
        rw [← Option.some.inj found, same]
        rfl
      · cases found
    · cases found
  · rintro rfl
    exact if_pos rfl

/-- The content of an alternative is read. -/
theorem bind_content?_eq_some_iff {α : Type} {json : Json} {name : String}
    {read : Json → Option α} {value : α} :
    (json.content? name).bind read = some value ↔
      ∃ content, json = .tagged name content ∧ read content = some value := by
  simp only [Option.bind_eq_some_iff, content?_eq_some_iff]

/-- Two alternatives without content and one with content, all of different names. -/
theorem or_bare?_or_bare?_or_content?_eq_some_iff {α : Type} {first second third : String}
    (differ : first ≠ second) (firstDiffers : third ≠ first) (secondDiffers : third ≠ second)
    {firstValue secondValue result : α} {read : Json → Option α} {json : Json} :
    (json.bare? first firstValue).or
        ((json.bare? second secondValue).or ((json.content? third).bind read)) = some result ↔
      json.IsBare first ∧ firstValue = result ∨ json.IsBare second ∧ secondValue = result ∨
        ∃ content, json = .tagged third content ∧ read content = some result := by
  simp only [← bare?_eq_some_iff, ← bind_content?_eq_some_iff]
  constructor
  · intro found
    rcases Option.or_eq_some_iff.mp found with isFirst | ⟨_, others⟩
    · exact Or.inl isFirst
    rcases Option.or_eq_some_iff.mp others with isSecond | ⟨_, isThird⟩
    · exact Or.inr (Or.inl isSecond)
    · exact Or.inr (Or.inr isThird)
  · rintro (isFirst | isSecond | isThird)
    · rw [isFirst, Option.some_or]
    · obtain ⟨isBare, rfl⟩ := bare?_eq_some_iff.mp isSecond
      rw [isBare.bare?_of_ne differ.symm, Option.none_or, isSecond, Option.some_or]
    · obtain ⟨content, rfl, _⟩ := bind_content?_eq_some_iff.mp isThird
      rw [bare?_tagged_of_ne firstDiffers, Option.none_or, bare?_tagged_of_ne secondDiffers,
        Option.none_or, isThird]

/-! ## Records -/

section Records

variable {α β : Type}

theorem isRecord_object_iff {members : List (String × Json)}
    {fields : List (String × (Json → Prop))} :
    (object members).IsRecord fields ↔
      ∃ parts, (object members).members? (fields.map Prod.fst) = some parts ∧
        List.Forall₂ (fun field part => field.2 part) fields parts := by
  simp only [IsRecord, members?, mapM_eq_some_iff, List.forall₂_map_left_iff]
  exact exists_forall₂_and_iff.symm

theorem isRecord_iff {json : Json} {fields : List (String × (Json → Prop))} :
    json.IsRecord fields ↔
      ∃ parts, json.fields? (fields.map Prod.fst) = some parts ∧
        List.Forall₂ (fun field part => field.2 part) fields parts := by
  cases json with
  | object members =>
      exact isRecord_object_iff
  | array items =>
      simp only [IsRecord, fields?, List.length_map]
      constructor
      · intro all
        exact ⟨items, if_pos all.length_eq.symm, all⟩
      · rintro ⟨parts, found, all⟩
        split at found
        · rw [Option.some.inj found]
          exact all
        · cases found
  | null | bool | number | string =>
      simp [IsRecord, fields?, members?]

theorem field?_eq_some_iff {read : Json → Option α} {next : α → List Json → Option β}
    {parts : List Json} {result : β} :
    field? read next parts = some result ↔
      ∃ part rest value, parts = part :: rest ∧ read part = some value ∧
        next value rest = some result := by
  cases parts with
  | nil =>
      simp [field?]
  | cons part rest =>
      simp only [field?, Option.bind_eq_some_iff, List.cons.injEq]
      constructor
      · rintro ⟨value, isValue, further⟩
        exact ⟨part, rest, value, ⟨rfl, rfl⟩, isValue, further⟩
      · rintro ⟨_, _, value, ⟨rfl, rfl⟩, isValue, further⟩
        exact ⟨value, isValue, further⟩

theorem record?_eq_some_iff {value result : α} {parts : List Json} :
    record? value parts = some result ↔ parts = [] ∧ value = result := by
  cases parts <;> simp [record?]

end Records

/-! ## Numbers -/

theorem nat?_eq_some_iff {json : Json} {number : Nat} :
    json.nat? = some number ↔ json = .nat number := by
  constructor
  · intro found
    unfold nat? at found
    split at found
    · rw [Option.some.inj found]
      rfl
    · cases found
  · rintro rfl
    rfl

/-- A number is read if it is below the size of its type. -/
theorem bind_nat?_eq_some_iff {α : Type} {size : Nat} {ofNat : Nat → α} {toNat : α → Nat}
    (toNat_lt : ∀ number, toNat number < size)
    (ofNat_toNat : ∀ number, ofNat (toNat number) = number)
    (toNat_ofNat : ∀ value, value < size → toNat (ofNat value) = value)
    {json : Json} {number : α} :
    (json.nat?.bind fun value => if value < size then some (ofNat value) else none) = some number ↔
      json = .nat (toNat number) := by
  simp only [Option.bind_eq_some_iff, nat?_eq_some_iff]
  constructor
  · rintro ⟨value, rfl, decoded⟩
    split at decoded
    · rename_i small
      rw [← Option.some.inj decoded, toNat_ofNat value small]
    · cases decoded
  · rintro rfl
    exact ⟨toNat number, rfl, by rw [if_pos (toNat_lt number), ofNat_toNat]⟩

end Json

open Json

/-! ## Forms of basic types -/

instance : LawfulJsonForm String where
  decode?_eq_some_iff {json text} := by
    change json.string? = some text ↔ json = .string text
    cases json <;> simp [string?]
  spells_encode _ := rfl

instance : LawfulJsonForm UInt32 where
  decode?_eq_some_iff :=
    bind_nat?_eq_some_iff UInt32.toNat_lt_size (fun _ => UInt32.ofNat_toNat)
      fun _ => UInt32.toNat_ofNat_of_lt'
  spells_encode _ := rfl

instance : LawfulJsonForm UInt64 where
  decode?_eq_some_iff :=
    bind_nat?_eq_some_iff UInt64.toNat_lt_size (fun _ => UInt64.ofNat_toNat)
      fun _ => UInt64.toNat_ofNat_of_lt'
  spells_encode _ := rfl

section Lists

variable {α : Type} [JsonForm α] [JsonSpelling α] [LawfulJsonForm α]

theorem decodeList?_eq_some_iff {json : Json} {values : List α} :
    JsonForm.decodeList? json = some values ↔ SpellsList json values := by
  simp only [JsonForm.decodeList?, SpellsList, Option.bind_eq_some_iff, mapM_eq_some_iff,
    decode?_eq_some_iff]
  refine exists_congr fun items => and_congr_left fun _ => ?_
  cases json <;> simp [array?]

theorem spellsList_encodeList (values : List α) :
    SpellsList (JsonForm.encodeList values) values := by
  refine ⟨values.map encode, rfl, ?_⟩
  rw [List.forall₂_map_left_iff, List.forall₂_same]
  exact fun value _ => spells_encode value

end Lists

/-! ## Records of one and of two fields -/

/-- A type with one field is read as the field. -/
theorem map_decode?_eq_some_iff {α β : Type} [JsonForm α] [JsonSpelling α] [LawfulJsonForm α]
    {make : α → β} {field : β → α} (make_field : ∀ value, make (field value) = value)
    (field_make : ∀ part, field (make part) = part) {json : Json} {value : β} :
    (decode? json).map make = some value ↔ Spells json (field value) := by
  rw [Option.map_eq_some_iff]
  constructor
  · rintro ⟨part, isPart, rfl⟩
    rw [field_make]
    exact decode?_eq_some_iff.mp isPart
  · intro spelled
    exact ⟨field value, decode?_eq_some_iff.mpr spelled, make_field value⟩

section Pairs

variable {α β γ : Type} [JsonForm α] [JsonSpelling α] [LawfulJsonForm α]
  [JsonForm β] [JsonSpelling β] [LawfulJsonForm β]

theorem bind_fields?_pair_eq_some_iff {make : α → β → γ} {left : γ → α} {right : γ → β}
    (make_fields : ∀ value, make (left value) (right value) = value)
    (left_make : ∀ first second, left (make first second) = first)
    (right_make : ∀ first second, right (make first second) = second)
    {leftName rightName : String} {json : Json} {value : γ} :
    (json.fields? [leftName, rightName]).bind
        (field? decode? fun first => field? decode? fun second => record? (make first second)) =
          some value ↔
      json.IsRecord
        [(leftName, (Spells · (left value))), (rightName, (Spells · (right value)))] := by
  simp only [isRecord_iff, Option.bind_eq_some_iff, field?_eq_some_iff, decode?_eq_some_iff,
    record?_eq_some_iff, List.forall₂_cons_left_iff, List.forall₂_nil_left_iff]
  constructor
  · rintro ⟨_, found, _, _, _, rfl, isLeft, _, _, _, rfl, isRight, rfl, rfl⟩
    rw [left_make, right_make]
    exact ⟨_, found, _, _, isLeft, ⟨_, _, isRight, rfl, rfl⟩, rfl⟩
  · rintro ⟨_, found, _, _, isLeft, ⟨_, _, isRight, rfl, rfl⟩, rfl⟩
    exact ⟨_, found, _, _, _, rfl, isLeft, _, _, _, rfl, isRight, rfl, make_fields value⟩

theorem isRecord_encode_pair {leftName rightName : String} (differ : rightName ≠ leftName)
    (left : α) (right : β) :
    (Json.object [(leftName, encode left), (rightName, encode right)]).IsRecord
      [(leftName, (Spells · left)), (rightName, (Spells · right))] := by
  refine List.forall_mem_cons.mpr ⟨⟨_, List.lookup_cons_self, spells_encode left⟩, ?_⟩
  refine List.forall_mem_singleton.mpr ⟨_, ?_, spells_encode right⟩
  rw [Entries.lookup_cons_of_ne differ, List.lookup_cons_self]

end Pairs

instance {K : Type} [Ord K] [Std.TransOrd K] [Std.LawfulEqOrd K] [JsonForm K] [JsonSpelling K]
    [LawfulJsonForm K] : LawfulJsonForm (SortedSet K) where
  decode?_eq_some_iff {json set} := by
    change (JsonForm.decodeList? json).map SortedSet.ofList = some set ↔
      ∃ members : List K, SpellsList json members ∧ ∀ member, member ∈ set ↔ member ∈ members
    simp only [Option.map_eq_some_iff, decodeList?_eq_some_iff]
    refine exists_congr fun members => and_congr_right fun _ => ?_
    constructor
    · rintro rfl member
      exact SortedSet.mem_ofList
    · intro same
      exact SortedSet.ext_mem fun member => SortedSet.mem_ofList.trans (same member).symm
  spells_encode set := ⟨set.toList, spellsList_encodeList set.toList, fun _ => Iff.rfl⟩

/-! ## Access paths -/

instance : LawfulJsonForm PathElement where
  decode?_eq_some_iff {json element} := by
    change Option.or _ (Option.or _ _) = some element ↔ _
    constructor
    · intro decoded
      rcases Option.or_eq_some_iff.mp decoded with isAnyIndex | ⟨_, isElement⟩
      · obtain ⟨isBare, rfl⟩ := bare?_eq_some_iff.mp isAnyIndex
        exact isBare
      rcases Option.or_eq_some_iff.mp isElement with isField | ⟨_, isIndex⟩
      · obtain ⟨content, rfl, found⟩ := bind_content?_eq_some_iff.mp isField
        obtain ⟨name, isName, rfl⟩ := Option.map_eq_some_iff.mp found
        exact congrArg (tagged "Field") (decode?_eq_some_iff.mp isName)
      · obtain ⟨content, rfl, found⟩ := bind_content?_eq_some_iff.mp isIndex
        obtain ⟨key, isKey, rfl⟩ := Option.map_eq_some_iff.mp found
        exact congrArg (tagged "Index") (decode?_eq_some_iff.mp isKey)
    · intro spelled
      cases element with
      | field name =>
          cases spelled
          rfl
      | index key =>
          cases spelled
          rfl
      | anyIndex =>
          rcases spelled with rfl | rfl
          · rfl
          · rfl
  spells_encode element := by
    cases element with
    | field name => rfl
    | index key => rfl
    | anyIndex => exact Or.inl rfl

instance : LawfulJsonForm Path where
  decode?_eq_some_iff {json path} := by
    change (json.fields? _).bind _ = some path ↔ IsRecord _ json
    simp only [isRecord_iff, Option.bind_eq_some_iff, field?_eq_some_iff, decodeList?_eq_some_iff,
      record?_eq_some_iff, List.forall₂_cons_left_iff, List.forall₂_nil_left_iff]
    constructor
    · rintro ⟨_, found, _, _, _, rfl, isPath, rfl, rfl⟩
      exact ⟨_, found, _, _, isPath, rfl, rfl⟩
    · rintro ⟨_, found, _, _, isPath, rfl, rfl⟩
      exact ⟨_, found, _, _, _, rfl, isPath, rfl, rfl⟩
  spells_encode path := List.forall_mem_singleton.mpr ⟨_, rfl, spellsList_encodeList path⟩

instance : LawfulJsonForm RootId where
  decode?_eq_some_iff := map_decode?_eq_some_iff (fun _ => rfl) fun _ => rfl
  spells_encode root := spells_encode root.number

instance : LawfulJsonForm Location where
  decode?_eq_some_iff :=
    bind_fields?_pair_eq_some_iff (fun _ => rfl) (fun _ _ => rfl) fun _ _ => rfl
  spells_encode _ := isRecord_encode_pair (by decide) _ _

/-! ## Value domains -/

instance : LawfulJsonForm CollapseDepth where
  decode?_eq_some_iff {json depth} := by
    -- Null is bottom, and everything else is read as a level.
    by_cases isNull : json = .null
    · subst isNull
      cases depth with
      | bottom =>
          exact iff_of_true rfl rfl
      | level number =>
          refine iff_of_false ?_ ?_
          · intro decoded
            cases decoded
          · intro spelled
            cases spelled
    · have readsLevel : decode? json = (decode? json).map CollapseDepth.level := by
        cases json with
        | null => exact absurd rfl isNull
        | bool | number | string | array | object => rfl
      rw [readsLevel, Option.map_eq_some_iff]
      simp only [decode?_eq_some_iff]
      cases depth with
      | bottom =>
          refine iff_of_false ?_ isNull
          rintro ⟨_, _, isBottom⟩
          cases isBottom
      | level number =>
          constructor
          · rintro ⟨_, spelled, isLevel⟩
            cases isLevel
            exact spelled
          · intro spelled
            exact ⟨number, spelled, rfl⟩
  spells_encode depth := by
    cases depth with
    | bottom => rfl
    | level number => exact spells_encode number

instance : LawfulJsonForm Feature where
  decode?_eq_some_iff := map_decode?_eq_some_iff (fun _ => rfl) fun _ => rfl
  spells_encode feature := spells_encode feature.name

/-- The two sets of features are read from the members of an object. -/
theorem bind_members?_eq_some_iff {content : Json} {features : FeatureSet} :
    (content.members? ["may", "always"]).bind
        (field? decode? fun may => field? decode? fun always =>
          record? (FeatureSet.value may always)) = some features ↔
      ∃ may always, (∃ members, content = .object members ∧
        (object members).IsRecord [("may", (Spells · may)), ("always", (Spells · always))]) ∧
          .value may always = features := by
  simp only [isRecord_object_iff, Option.bind_eq_some_iff, field?_eq_some_iff,
    decode?_eq_some_iff, record?_eq_some_iff, List.forall₂_cons_left_iff,
    List.forall₂_nil_left_iff]
  constructor
  · rintro ⟨_, found, _, _, may, rfl, isMay, _, _, always, rfl, isAlways, rfl, rfl⟩
    refine ⟨may, always, ?_, rfl⟩
    cases content with
    | object members =>
        exact ⟨members, rfl, _, found, _, _, isMay, ⟨_, _, isAlways, rfl, rfl⟩, rfl⟩
    | null | bool | number | string | array =>
        cases found
  · rintro ⟨may, always, ⟨members, rfl, _, found, _, _, isMay, ⟨_, _, isAlways, rfl, rfl⟩, rfl⟩,
      rfl⟩
    exact ⟨_, found, _, _, may, rfl, isMay, _, _, always, rfl, isAlways, rfl, rfl⟩

instance : LawfulJsonForm FeatureSet where
  decode?_eq_some_iff {json features} := by
    refine (or_bare?_or_bare?_or_content?_eq_some_iff
      (by decide) (by decide) (by decide)).trans ?_
    simp only [bind_members?_eq_some_iff]
    cases features with
    | bottom => simp [Spells]
    | top => simp [Spells]
    | value may always => simp [Spells]
  spells_encode features := by
    cases features with
    | bottom => exact Or.inl rfl
    | top => exact Or.inl rfl
    | value may always => exact ⟨_, rfl, isRecord_encode_pair (by decide) may always⟩

instance : LawfulJsonForm Position where
  decode?_eq_some_iff :=
    bind_fields?_pair_eq_some_iff (fun _ => rfl) (fun _ _ => rfl) fun _ _ => rfl
  spells_encode _ := isRecord_encode_pair (by decide) _ _

section Positions

variable {heuristics : Heuristics}

instance : LawfulJsonForm (PositionSet heuristics) where
  decode?_eq_some_iff {json positions} := by
    refine (or_bare?_or_bare?_or_content?_eq_some_iff
      (by decide) (by decide) (by decide)).trans ?_
    simp only [Option.map_eq_some_iff, decode?_eq_some_iff]
    cases positions with
    | bottom => simp [Spells]
    | widened => simp [Spells]
    | listed positions => simp [Spells]
  spells_encode positions := by
    cases positions with
    | bottom => exact Or.inl rfl
    | widened => exact Or.inl rfl
    | listed positions => exact ⟨_, rfl, spells_encode positions⟩

instance : LawfulJsonForm (TaintFrame heuristics) where
  decode?_eq_some_iff :=
    bind_fields?_pair_eq_some_iff (fun _ => rfl) (fun _ _ => rfl) fun _ _ => rfl
  spells_encode _ := isRecord_encode_pair (by decide) _ _

instance : LawfulJsonForm (EdgeProperties heuristics) where
  decode?_eq_some_iff {json edge} := by
    change (json.fields? _).bind _ = some edge ↔ IsRecord _ json
    simp only [isRecord_iff, Option.bind_eq_some_iff, field?_eq_some_iff, decode?_eq_some_iff,
      record?_eq_some_iff, List.forall₂_cons_left_iff, List.forall₂_nil_left_iff]
    constructor
    · rintro ⟨_, found, _, _, _, rfl, arePositions, _, _, _, rfl, areFeatures, _, _, _, rfl,
        isDepth, rfl, rfl⟩
      exact ⟨_, found, _, _, arePositions, ⟨_, _, areFeatures, ⟨_, _, isDepth, rfl, rfl⟩, rfl⟩, rfl⟩
    · rintro ⟨_, found, _, _, arePositions, ⟨_, _, areFeatures, ⟨_, _, isDepth, rfl, rfl⟩, rfl⟩,
        rfl⟩
      exact ⟨_, found, _, _, _, rfl, arePositions, _, _, _, rfl, areFeatures, _, _, _, rfl, isDepth,
        rfl, rfl⟩
  spells_encode edge := by
    refine List.forall_mem_cons.mpr ⟨⟨_, rfl, spells_encode _⟩, ?_⟩
    refine List.forall_mem_cons.mpr ⟨⟨_, rfl, spells_encode _⟩, ?_⟩
    exact List.forall_mem_singleton.mpr ⟨_, rfl, spells_encode _⟩

end Positions

/-! ## Heuristics -/

theorem boundOr_eq_some_iff {standard bound : UInt64} {given : Option Json} :
    Heuristics.boundOr standard given = some bound ↔ SpellsBound standard bound given := by
  cases given with
  | none => simp [Heuristics.boundOr, SpellsBound, eq_comm]
  | some json => exact decode?_eq_some_iff

theorem ofGiven?_eq_some_iff {height positions hops : Option Json} {heuristics : Heuristics} :
    Heuristics.ofGiven? height positions hops = some heuristics ↔
      SpellsBounds heuristics height positions hops := by
  simp only [Heuristics.ofGiven?, Option.bind_eq_some_iff, Option.map_eq_some_iff,
    boundOr_eq_some_iff, SpellsBounds]
  constructor
  · rintro ⟨_, isHeight, _, arePositions, _, areHops, rfl⟩
    exact ⟨isHeight, arePositions, areHops⟩
  · rintro ⟨isHeight, arePositions, areHops⟩
    exact ⟨_, isHeight, _, arePositions, _, areHops, rfl⟩

instance : LawfulJsonForm Heuristics where
  decode?_eq_some_iff {json heuristics} := by
    cases json with
    | object members =>
        -- An object is refused for an unknown member, an array for its length.
        have onlyBounds :
            (members.all fun entry => Heuristics.fieldNames.contains entry.1) = true ↔
              ∀ entry ∈ members, entry.1 ∈ Heuristics.fieldNames := by
          simp only [List.all_eq_true, List.contains_iff_mem]
        change (if _ then Heuristics.ofGiven? _ _ _ else none) = some heuristics ↔
          _ ∧ SpellsBounds heuristics _ _ _
        rw [Option.ite_none_right_eq_some, onlyBounds, ofGiven?_eq_some_iff]
    | array items =>
        change (if _ then Heuristics.ofGiven? _ _ _ else none) = some heuristics ↔
          _ ∧ SpellsBounds heuristics _ _ _
        rw [Option.ite_none_right_eq_some, ofGiven?_eq_some_iff]
    | null | bool | number | string =>
        refine iff_of_false ?_ id
        intro decoded
        cases decoded
  spells_encode heuristics := by
    refine ⟨List.forall_mem_map.mpr fun bound member => ?_, rfl, rfl, rfl⟩
    have sameNames :
        heuristics.bounds.map Heuristics.Bound.field = Heuristics.fieldNames :=
      rfl
    rw [← sameNames]
    exact List.mem_map_of_mem member

/-! ## All forms -/

/-- Exactly the spellings of a value are read as the value; what is written for it is one of them,
also if the value was read from another; and what is written tells values apart. -/
structure RoundTrips (α : Type) [JsonForm α] [JsonSpelling α] : Prop where
  decode?_eq_some_iff (json : Json) (value : α) : decode? json = some value ↔ Spells json value
  decode?_encode (value : α) : decode? (encode value) = some value
  decode?_encode_of_decode? (json : Json) (value : α) :
    decode? json = some value → decode? (encode value) = some value
  decode?_eq_iff (json other : Json) (value otherValue : α) :
    decode? json = some value → decode? other = some otherValue →
      (value = otherValue ↔ encode value = encode otherValue)

theorem LawfulJsonForm.roundTrips (α : Type) [JsonForm α] [JsonSpelling α] [LawfulJsonForm α] :
    RoundTrips α where
  decode?_eq_some_iff _ _ := decode?_eq_some_iff
  decode?_encode := decode?_encode
  decode?_encode_of_decode? _ value _ := decode?_encode value
  decode?_eq_iff _ _ _ _ _ _ := encode_inj.symm

/-- Access paths, locations, the values of all domains and the heuristics are read back from what is
written for them.  Nothing is asked of the values: a position set may be larger than the heuristics
allow, and a frame bottom in one part only. -/
theorem jsonForms_roundTrip (heuristics : Heuristics) :
    RoundTrips PathElement ∧ RoundTrips Path ∧ RoundTrips Location ∧
    RoundTrips CollapseDepth ∧ RoundTrips FeatureSet ∧ RoundTrips Position ∧
    RoundTrips (PositionSet heuristics) ∧ RoundTrips (TaintFrame heuristics) ∧
    RoundTrips (EdgeProperties heuristics) ∧ RoundTrips Heuristics :=
  ⟨roundTrips _, roundTrips _, roundTrips _, roundTrips _, roundTrips _, roundTrips _,
    roundTrips _, roundTrips _, roundTrips _, roundTrips _⟩

/-- Unsorted features with a repetition, in an array of the fields of a frame. -/
example :
    decode? (.array
      [.tagged "Value" (.object
        [("always", .array []), ("may", .array [.string "b", .string "a", .string "b"])]),
       .tagged "Widened" .null]) =
      some (⟨.ofMay [⟨"a"⟩, ⟨"b"⟩], .widened⟩ : TaintFrame .standard) :=
  rfl

end AliasTaint
