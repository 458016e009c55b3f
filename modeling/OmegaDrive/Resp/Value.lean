import OmegaDrive.Resp.Command

set_option autoImplicit false

namespace OmegaDrive

theorem line_split (line other rest more : Bytes) (oneLine : ∀ byte ∈ line, byte ≠ 13)
    (otherLine : ∀ byte ∈ other, byte ≠ 13) (same : line ++ 13 :: rest = other ++ 13 :: more) :
    line = other ∧ rest = more := by
  induction line generalizing other with
  | nil =>
    cases other with
    | nil => exact ⟨rfl, (List.cons.inj same).2⟩
    | cons byte other =>
      exact absurd (List.cons.inj same).1.symm (otherLine byte List.mem_cons_self)
  | cons byte line ih =>
    cases other with
    | nil => exact absurd (List.cons.inj same).1 (oneLine byte List.mem_cons_self)
    | cons first other =>
      obtain ⟨rfl, tails⟩ := List.cons.inj same
      obtain ⟨rfl, rests⟩ := ih other (fun b inside => oneLine b (List.mem_cons_of_mem _ inside))
        (fun b inside => otherLine b (List.mem_cons_of_mem _ inside)) tails
      exact ⟨rfl, rests⟩

structure Line where
  bytes : Bytes
  whole : ∀ byte ∈ bytes, byte ≠ 13 ∧ byte ≠ 10

theorem wholeLine (bytes : Bytes) (all : bytes.all (fun byte => byte != 13 && byte != 10) = true) :
    ∀ byte ∈ bytes, byte ≠ 13 ∧ byte ≠ 10 := by
  simpa using all

inductive RespValue where
  | simple (line : Line)
  | error (line : Line)
  | integer (value : Int)
  | bulk (data : Bytes)
  | null
  | array (items : List RespValue)

namespace RespValue

def tag : RespValue → Byte
  | .simple _ => 43
  | .error _ => 45
  | .integer _ => 58
  | .bulk _ => 36
  | .null => 36
  | .array _ => 42

/-- What stands between the tag and the first line break: the value itself, or its length. -/
def line : RespValue → Bytes
  | .simple line => line.bytes
  | .error line => line.bytes
  | .integer value => signedText value
  | .bulk data => Decimal.text data.length
  | .null => ascii "-1"
  | .array items => Decimal.text items.length

mutual

def body : RespValue → Bytes
  | .bulk data => data ++ crlf
  | .array items => texts items
  | _ => []

def texts : List RespValue → Bytes
  | [] => []
  | value :: values => value.tag :: (value.line ++ crlf ++ value.body) ++ texts values

end

def text (value : RespValue) : Bytes := value.tag :: (value.line ++ crlf ++ value.body)

@[simp] theorem texts_nil : texts [] = [] := rfl

@[simp] theorem texts_cons (value : RespValue) (values : List RespValue) :
    texts (value :: values) = value.text ++ texts values := rfl

theorem texts_append (first second : List RespValue) :
    texts (first ++ second) = texts first ++ texts second := by
  induction first with
  | nil => rfl
  | cons value first ih => rw [List.cons_append, texts_cons, texts_cons, ih, List.append_assoc]

theorem texts_map {α : Type} (value : α → RespValue) (items : List α) :
    texts (items.map value) = items.flatMap fun item => (value item).text := by
  induction items with
  | nil => rfl
  | cons item items ih => rw [List.map_cons, texts_cons, ih, List.flatMap_cons]

theorem text_bulk (data : Bytes) : text (.bulk data) = makeBulkString data := by
  simp [text, tag, line, body, makeBulkString, show ascii "$" = [36] from rfl]

theorem text_integer (value : Int) : text (.integer value) = makeInt value := by
  simp [text, tag, line, body, makeInt, show ascii ":" = [58] from rfl]

theorem text_array (items : List RespValue) :
    text (.array items) = arrayHeader items.length ++ texts items := by
  simp [text, tag, line, body, arrayHeader, show ascii "*" = [42] from rfl]

theorem text_noItems : ascii "*0\r\n" = text (.array []) := by decide

theorem length_pairs {α β : Type} (first second : α → β) (items : List α) :
    (items.flatMap fun item => [first item, second item]).length = items.length * 2 := by
  induction items with
  | nil => rfl
  | cons item items ih =>
    simp only [List.flatMap_cons, List.length_append, List.length_cons, List.length_nil, ih]
    omega

theorem texts_pairs {α : Type} (first second : α → RespValue) (items : List α) :
    texts (items.flatMap fun item => [first item, second item]) =
      items.flatMap fun item => (first item).text ++ (second item).text := by
  induction items with
  | nil => rfl
  | cons item items ih =>
    simp only [List.flatMap_cons, texts_append, texts_cons, texts_nil, List.append_nil, ih]

theorem text_pairs {α : Type} (first second : α → RespValue) (items : List α) :
    arrayHeader (items.length * 2) ++
        (items.flatMap fun item => (first item).text ++ (second item).text) =
      text (.array (items.flatMap fun item => [first item, second item])) := by
  rw [text_array, texts_pairs, length_pairs]

theorem digits_plain (n : Nat) : ∀ byte ∈ Decimal.text n, byte ≠ 13 ∧ byte ≠ 45 := by
  intro byte inside
  have digit := Decimal.digits_text n byte inside
  constructor
  · rintro rfl
    exact absurd digit (by decide)
  · rintro rfl
    exact absurd digit (by decide)

theorem digits_ne_null (n : Nat) : Decimal.text n ≠ ascii "-1" := fun same =>
  (digits_plain n 45 (by rw [same]; decide)).2 rfl

theorem signedText_inj (value other : Int) (same : signedText value = signedText other) :
    value = other := by
  have minus (n m : Nat) : (45 : Byte) :: Decimal.text n ≠ Decimal.text m :=
    (Decimal.text_ne_cons m 45 _ rfl).symm
  unfold signedText at same
  split at same <;> split at same
  · have digits := Decimal.text_inj _ _ (List.append_cancel_left same)
    omega
  · exact absurd same (minus _ _)
  · exact absurd same.symm (minus _ _)
  · have digits := Decimal.text_inj _ _ same
    omega

theorem line_plain (value : RespValue) : ∀ byte ∈ value.line, byte ≠ 13 := by
  intro byte inside
  cases value with
  | simple line => exact (line.whole byte inside).1
  | error line => exact (line.whole byte inside).1
  | integer value =>
    rw [line, signedText] at inside
    split at inside
    next =>
      rcases List.mem_append.mp inside with minus | digits
      · rw [List.mem_singleton.mp minus]
        decide
      · exact (digits_plain _ byte digits).1
    next => exact (digits_plain _ byte inside).1
  | bulk data => exact (digits_plain _ byte inside).1
  | null => exact (wholeLine _ (by decide) byte inside).1
  | array items => exact (digits_plain _ byte inside).1

theorem text_split (value other : RespValue) (rest more : Bytes)
    (same : value.text ++ rest = other.text ++ more) :
    value.tag = other.tag ∧ value.line = other.line ∧ value.body ++ rest = other.body ++ more := by
  simp only [text, crlf, List.cons_append, List.append_assoc] at same
  obtain ⟨tags, lines⟩ := List.cons.inj same
  obtain ⟨line, bodies⟩ := line_split _ _ _ _ value.line_plain other.line_plain lines
  exact ⟨tags, line, (List.cons.inj bodies).2⟩

mutual

theorem value_unique : (value other : RespValue) → (rest more : Bytes) →
    value.tag = other.tag → value.line = other.line → value.body ++ rest = other.body ++ more →
    value = other ∧ rest = more
  | .simple ⟨bytes, _⟩, .simple ⟨_, _⟩, rest, more, _, lines, bodies => by
    obtain rfl : bytes = _ := lines
    exact ⟨rfl, bodies⟩
  | .error ⟨bytes, _⟩, .error ⟨_, _⟩, rest, more, _, lines, bodies => by
    obtain rfl : bytes = _ := lines
    exact ⟨rfl, bodies⟩
  | .integer value, .integer other, rest, more, _, lines, bodies =>
    ⟨congrArg _ (signedText_inj _ _ lines), bodies⟩
  | .null, .null, rest, more, _, _, bodies => ⟨rfl, bodies⟩
  | .bulk data, .bulk other, rest, more, _, lines, bodies => by
    have lengths := Decimal.text_inj _ _ lines
    simp only [body, List.append_assoc] at bodies
    obtain ⟨rfl, tails⟩ := List.append_inj bodies lengths
    exact ⟨rfl, List.append_cancel_left tails⟩
  | .array items, .array others, rest, more, _, lines, bodies => by
    have lengths := Decimal.text_inj _ _ lines
    obtain ⟨rfl, rests⟩ := values_unique items others rest more lengths bodies
    exact ⟨rfl, rests⟩
  | .bulk data, .null, _, _, _, lines, _ => absurd lines (digits_ne_null data.length)
  | .null, .bulk data, _, _, _, lines, _ => absurd lines.symm (digits_ne_null data.length)

theorem values_unique : (values others : List RespValue) → (rest more : Bytes) →
    values.length = others.length → texts values ++ rest = texts others ++ more →
    values = others ∧ rest = more
  | [], [], _, _, _, same => ⟨rfl, same⟩
  | value :: values, other :: others, rest, more, lengths, same => by
    rw [texts_cons, texts_cons, List.append_assoc, List.append_assoc] at same
    obtain ⟨tags, lines, bodies⟩ := text_split value other _ _ same
    obtain ⟨rfl, tails⟩ := value_unique value other _ _ tags lines bodies
    obtain ⟨rfl, rests⟩ := values_unique values others rest more (Nat.succ.inj lengths) tails
    exact ⟨rfl, rests⟩

end

theorem stream_unique (values others : List RespValue) (same : texts values = texts others) :
    values = others := by
  induction values generalizing others with
  | nil =>
    cases others with
    | nil => rfl
    | cons other others => cases same
  | cons value values ih =>
    cases others with
    | nil => cases same
    | cons other others =>
      rw [texts_cons, texts_cons] at same
      obtain ⟨tags, lines, bodies⟩ := text_split value other _ _ same
      obtain ⟨rfl, tails⟩ := value_unique value other _ _ tags lines bodies
      rw [ih others tails]

theorem text_unique (value other : RespValue) (same : value.text = other.text) : value = other :=
  (List.cons.inj (stream_unique [value] [other] (by simp [same]))).1

def mapReply (pairs : List (Bytes × Bytes)) : RespValue :=
  .array (pairs.flatMap fun pair => [.bulk pair.1, .bulk pair.2])

theorem mapReply_inj (pairs others : List (Bytes × Bytes)) (same : mapReply pairs = mapReply others) :
    pairs = others := by
  have items := RespValue.array.inj same
  clear same
  induction pairs generalizing others with
  | nil =>
    cases others with
    | nil => rfl
    | cons other others => cases items
  | cons pair pairs ih =>
    cases others with
    | nil => cases items
    | cons other others =>
      simp only [List.flatMap_cons, List.cons_append, List.nil_append, List.cons.injEq,
        RespValue.bulk.injEq] at items
      obtain ⟨names, values, rest⟩ := items
      rw [Prod.ext names values, ih others rest]

end RespValue

end OmegaDrive
