/-
# Layouts of a JSON text

A text of JSON with blank space anywhere around its items, missing items and,
in a row, items without commas between them, and the variable that the parser
makes of it, where it makes one (`JSONLayout.ends`). Which text `Variable::write`
leaves to be read again is a special case.

Key definitions: `JSONLayout`, `JSONLayout.text`, `JSONLayout.reading`.
-/
import BeeFish.JSONSet

namespace BeeFish

open BString

/-- How a text is laid out. An item has blank space before and after it and may
be missing; in the member of an object there is also blank space around the
colon. The elements of a row stand one after another. -/
inductive JSONLayout where
  | undefined
  | null
  | boolean (boolean : Bool)
  | integer (digits : BString)
  | string (string : BString)
  | array (items : List (BString × Option JSONLayout × BString))
  | row (elements : List JSONLayout)
  | object (members : List (BString × Option (BString × BString × BString × JSONLayout) × BString))

namespace JSONLayout

def isInteger : JSONLayout → Bool
  | integer _ => true
  | _ => false

/-- A comma before more items. -/
def comma {α : Type} (items : List α) : BString := if items.isEmpty then [] else [44]

mutual

def text : JSONLayout → BString
  | undefined => BeeFish.text "undefined"
  | null => BeeFish.text "null"
  | boolean b => if b then BeeFish.text "true" else BeeFish.text "false"
  | integer digits => digits
  | string s => 34 :: (s.escape ++ [34])
  | array items => 91 :: (itemsText items ++ [93])
  | row elements => 91 :: (rowText elements ++ [93])
  | object members => 123 :: (membersText members ++ [125])

def itemsText : List (BString × Option JSONLayout × BString) → BString
  | [] => []
  | (before, none, after) :: items => before ++ after ++ comma items ++ itemsText items
  | (before, some item, after) :: items =>
    before ++ text item ++ after ++ comma items ++ itemsText items

def rowText : List JSONLayout → BString
  | [] => []
  | element :: elements => text element ++ rowText elements

def membersText :
    List (BString × Option (BString × BString × BString × JSONLayout) × BString) → BString
  | [] => []
  | (before, none, after) :: members => before ++ after ++ comma members ++ membersText members
  | (before, some (key, x, y, value), after) :: members =>
    before ++ (34 :: (key.escape ++ [34])) ++ x ++ [58] ++ y ++ text value ++ after ++
      comma members ++ membersText members

end

/-- Blank space. -/
def Blank (x : BString) : Prop := ∀ b ∈ x, JSONGrammar.isBlank b = true

mutual

def Valid : JSONLayout → Prop
  | integer digits => digits ≠ [] ∧ ∀ b ∈ digits, isDigit b = true
  | string s => Whole s
  | array items => ValidItems items
  | row elements => 2 ≤ elements.length ∧ ValidRow elements
  | object members => ValidMembers members
  | _ => True

def ValidItems : List (BString × Option JSONLayout × BString) → Prop
  | [] => True
  | (before, none, after) :: items => Blank before ∧ Blank after ∧ ValidItems items
  | (before, some item, after) :: items =>
    Blank before ∧ Blank after ∧ Valid item ∧ ValidItems items

def ValidRow : List JSONLayout → Prop
  | [] => True
  | element :: elements => Valid element ∧ ValidRow elements

def ValidMembers :
    List (BString × Option (BString × BString × BString × JSONLayout) × BString) → Prop
  | [] => True
  | (before, none, after) :: members => Blank before ∧ Blank after ∧ ValidMembers members
  | (before, some (key, x, y, value), after) :: members =>
    Blank before ∧ Blank after ∧ Whole key ∧ Blank x ∧ Blank y ∧ Valid value ∧ ValidMembers members

end

section

variable (pageSize : ℕ+)

mutual

/-- The variable that the text is read as, unless it is rejected. An item may
be missing only after the last comma, and a row is read only as one integer. -/
def reading : JSONLayout → Option Variable
  | undefined => some .undefined
  | null => some .null
  | boolean b => some (.boolean b)
  | integer digits => some (.integer (ScriptParser.atol digits))
  | string s => some (.string (JSONString.value pageSize s))
  | array items => (itemsReading items []).map .array
  | row elements =>
    if elements.all isInteger then some (.array [.integer (ScriptParser.atol (rowText elements))])
      else none
  | object members => (membersReading members []).map .object

def itemsReading : List (BString × Option JSONLayout × BString) → List Variable →
    Option (List Variable)
  | [], read => some read
  | (_, none, _) :: items, read => if items.isEmpty then some read else none
  | (_, some item, _) :: items, read =>
    (reading item).bind fun value => itemsReading items (read ++ [value])

def membersReading : List (BString × Option (BString × BString × BString × JSONLayout) × BString) →
    Members → Option Members
  | [], read => some read
  | (_, none, _) :: members, read => if members.isEmpty then some read else none
  | (_, some (key, _, _, layout), _) :: members, read =>
    (reading layout).bind fun value => membersReading members
      (Members.set (JSONString.value pageSize key) value read)

end

end

/-! ### The first byte -/

open JSONGrammar

open BeeFish.Parser (characters)

open Match (Comes)

variable {pageSize : ℕ+} {t : BString} {b : UInt8}

/-- What a layout starts with when it is no integer. -/
def marks : List UInt8 := [117, 110, 116, 102, 34, 91, 123]

theorem text_first {l : JSONLayout} (h : l.Valid) : ∃ b x, l.text = b :: x ∧
    if l.isInteger then isDigit b = true else b ∈ marks := by
  cases l with
  | undefined => exact ⟨117, _, rfl, by decide⟩
  | null => exact ⟨110, _, rfl, by decide⟩
  | boolean b =>
    cases b with
    | true => exact ⟨116, _, rfl, by decide⟩
    | false => exact ⟨102, _, rfl, by decide⟩
  | integer digits =>
    obtain ⟨hne, hdigits⟩ := h
    obtain ⟨b, x, rfl⟩ := List.exists_cons_of_ne_nil hne
    exact ⟨b, x, rfl, hdigits b List.mem_cons_self⟩
  | string s => exact ⟨34, _, rfl, show (34 : UInt8) ∈ marks by decide⟩
  | array items => exact ⟨91, _, rfl, show (91 : UInt8) ∈ marks by decide⟩
  | row elements => exact ⟨91, _, rfl, show (91 : UInt8) ∈ marks by decide⟩
  | object members => exact ⟨123, _, rfl, show (123 : UInt8) ∈ marks by decide⟩

theorem digit_first (h : isDigit b = true) : Blocks b ∧ b ≠ 44 ∧ ∀ j < items.length, j ≠ 3 →
    startsItem j b = false := by
  have hall : ∀ n : Fin 256, isDigit (UInt8.ofNat n) = true →
    (UInt8.ofNat n < 0x80 ∧ isBlank (UInt8.ofNat n) = false ∧ UInt8.ofNat n ≠ 93 ∧
      UInt8.ofNat n ≠ 125) ∧ UInt8.ofNat n ≠ 44 ∧ ∀ j < 7, j ≠ 3 → startsItem j (UInt8.ofNat n) =
        false := by decide +kernel
  have hb := hall ⟨b.toNat, b.toNat_lt⟩
  rw [UInt8.ofNat_toNat] at hb
  exact hb h

theorem marks_first (h : b ∈ marks) : (b < 0x80 ∧ isBlank b = false ∧ b ≠ 93 ∧ b ≠ 125) ∧ b ≠ 44 ∧
    isDigit b = false ∧ b ∉ BeeFish.text ".eE" := by
  simp only [marks, List.mem_cons, List.not_mem_nil, or_false] at h
  rcases h with rfl | rfl | rfl | rfl | rfl | rfl | rfl <;> decide

theorem text_blocks {l : JSONLayout} (h : l.Valid) : ∃ b x, l.text = b :: x ∧ Blocks b ∧ b ≠ 44 ∧
    (l.isInteger = false → isDigit b = false ∧ b ∉ BeeFish.text ".eE") := by
  obtain ⟨b, x, htext, hb⟩ := text_first h
  refine ⟨b, x, htext, ?_⟩
  cases hl : l.isInteger with
  | true =>
    rw [hl] at hb
    have hfirst := digit_first hb
    exact ⟨hfirst.1, hfirst.2.1, nofun⟩
  | false =>
    rw [hl] at hb
    have hfirst := marks_first (List.mem_of_elem_eq_true (by simpa using hb))
    exact ⟨hfirst.1, hfirst.2.1, fun _ => hfirst.2.2⟩

theorem starts_text {l : JSONLayout} (h : l.Valid) : Starts l.text := by
  obtain ⟨b, x, htext, hb, -⟩ := text_blocks h
  exact ⟨b, x, htext, hb.1, hb.2.1⟩

/-! ### Scalars -/

variable (pageSize) in
theorem word_makes {i : ℕ} {letters x : BString} {v : Variable} (hletters : letters = b :: x)
    (hascii : ∀ d ∈ letters, d < 0x80)
    (hblank : isBlank b = false) (hi : items[i]? = some (.word id letters none))
    (hother : ∀ j < items.length, j ≠ i → startsItem j b = false)
    (hvalue : ∀ stack, ScriptParser.onvalue stack (type i []) [] = .ok (v :: stack)) :
    Makes pageSize json (characters (letters ++ t)) t (some v) := by
  subst hletters
  have hcomes := word_comes pageSize (List.cons_ne_nil b x) hascii t
  exact json_makes hi (hascii b List.mem_cons_self) hblank hother hcomes hvalue

variable (pageSize) in
theorem boolean_comes (value : Bool) (t : BString) : ∃ b x m, (boolean value).text = b :: x ∧
    b < 0x80 ∧ isBlank b = false ∧
    (∀ j < items.length, j ≠ 2 → startsItem j b = false) ∧ Comes
    (program pageSize) JSONGrammar.boolean (characters ((boolean value).text ++ t))
      false true (.capture (fun _ => true) (boolean value).text m (some true))
        (characters t) [] := by
  have hword : ∀ value, Comes (program pageSize) (.word id (boolean value).text none)
    (characters ((boolean value).text ++ t)) false true _
      (characters t) [] := fun value => word_comes pageSize (by cases value <;> decide)
        (forall_of_all (by cases value <;> decide)) t
  have hascii : ∀ d ∈ (boolean value).text, d < 0x80 := forall_of_all (by cases value <;> decide)
  cases value with
  | true =>
    have hfirst : characters ((boolean true).text ++ t) = [116] :: characters
      (BeeFish.text "rue" ++ t) := characters_byte (by decide) _
    have hfalse : ∀ k ∈ [(.word id (BeeFish.text "false") none : JSONMatch)],
      Match.Refuses (program pageSize) [116] k := by
      intro k hk
      obtain rfl := List.mem_singleton.mp hk
      exact .word _ (show (116 : UInt8) ≠ 102 by decide)
    have htrue := hword true
    rw [hfirst] at htrue
    obtain ⟨inputs, item, hor, -⟩ := htrue.or (List.forall_mem_nil _) hfalse rfl
    rw [← hfirst] at hor
    exact ⟨116, _, _, rfl, by decide, by decide, by decide, captured pageSize hascii rfl hor⟩
  | false =>
    have hfirst : characters ((boolean false).text ++ t) = [102] :: characters
      (BeeFish.text "alse" ++ t) := characters_byte (by decide) _
    have htrue : ∀ k ∈ [(.word id (BeeFish.text "true") none : JSONMatch)],
      Match.Refuses (program pageSize) [102] k := by
      intro k hk
      obtain rfl := List.mem_singleton.mp hk
      exact .word _ (show (102 : UInt8) ≠ 116 by decide)
    have hfalse := hword false
    rw [hfirst] at hfalse
    obtain ⟨inputs, item, hor, -⟩ := hfalse.or htrue (List.forall_mem_nil _) rfl
    rw [← hfirst] at hor
    exact ⟨102, _, _, rfl, by decide, by decide, by decide, captured pageSize hascii rfl hor⟩

variable (pageSize) in
theorem boolean_makes (value : Bool) (t : BString) :
    Makes pageSize json (characters ((boolean value).text ++ t)) t (some (.boolean value)) := by
  obtain ⟨b, x, m, htext, hb, hblank, hother, hcomes⟩ := boolean_comes pageSize value t
  have hvalue : ∀ stack, ScriptParser.onvalue stack .boolean (boolean value).text =
    .ok (.boolean value :: stack) := fun stack => by
    cases value <;> rfl
  rw [htext] at hcomes hvalue ⊢
  exact json_makes (i := 2) rfl hb hblank hother hcomes hvalue

theorem integer_value {digits : BString} (h : ∀ b ∈ digits, isDigit b = true) :
    type 3 digits = .integer := by
  have hmarks : ∀ b ∈ BeeFish.text "-+eE.", isDigit b = false := forall_of_all (by decide)
  have hany : digits.any (· ∈ BeeFish.text "-+eE.") = false := by
    refine List.any_eq_false.mpr fun b hb hmem => ?_
    have hb := h b hb
    rw [hmarks b (of_decide_eq_true hmem)] at hb
    exact nomatch hb
  rw [type, hany]
  rfl

theorem integer_makes {digits : BString} (h0 : digits ≠ []) (h : ∀ b ∈ digits, isDigit b = true)
    (ht : AfterNumber t) :
    Makes pageSize json (characters (digits ++ t)) t
      (some (.integer (ScriptParser.atol digits))) := by
  obtain ⟨_, hcomes⟩ := number_comes pageSize h0 h ht
  have htype := integer_value h
  obtain ⟨b, x, rfl⟩ := List.exists_cons_of_ne_nil h0
  have hfirst := digit_first (h b List.mem_cons_self)
  exact json_makes (i := 3) rfl hfirst.1.1 hfirst.1.2.1 hfirst.2.2 hcomes
    fun stack => by simp only [itemValue, Match.value, htype, ScriptParser.onvalue]

theorem string_makes {s : BString} (h : Whole s) (t : BString) :
    Makes pageSize json (characters ((string s).text ++ t)) t
      (some (.string (JSONString.value pageSize s))) := by
  obtain ⟨_, hcomes, hvalue⟩ := string_value pageSize h t
  have htext : (string s).text ++ t = 34 :: (s.escape ++ 34 :: t) := by simp [text]
  rw [htext]
  exact json_makes (i := 4) rfl (by decide) (by decide) (by decide)
    hcomes fun stack => by rw [hvalue]; rfl

/-! ### Items -/

section

variable {α β : Type} (make : β → BString × Option (α → α))

/-- An item as a set has it. -/
def piece (item : BString × Option β × BString) : Piece α := ⟨item.1, item.2.2, item.2.1.map make⟩

/-- The items with commas between them. -/
def joined : List (BString × Option β × BString) → BString
  | [] => []
  | item :: items => (piece make item).text ++ comma items ++ joined items

theorem joined_following (close : UInt8) (t : BString) : ∀ item items,
    joined make (item :: items) ++ close :: t = (piece make item).text ++ following close t
      (items.map (piece make))
  | item, [] => by simp [joined, comma, following]
  | item, next :: items => by
    have ih := joined_following close t next items
    rw [joined, List.append_assoc, ih]
    simp [comma, following]

end

variable (pageSize) in
/-- An element of an array. -/
def element (l : JSONLayout) : BString × Option (List Variable → List Variable) :=
  (l.text, (l.reading pageSize).map fun value elements => elements ++ [value])

variable (pageSize) in
/-- A member of an object. -/
def member (content : BString × BString × BString × JSONLayout) :
    BString × Option (Members → Members) :=
  (34 :: (content.1.escape ++ [34]) ++ content.2.1 ++ [58] ++ content.2.2.1 ++ content.2.2.2.text,
    (content.2.2.2.reading pageSize).map (Members.set (JSONString.value pageSize content.1)))

variable (pageSize) in
theorem itemsText_joined : ∀ items, itemsText items = joined (element pageSize) items
  | [] => rfl
  | (before, none, after) :: items => by
    rw [itemsText, joined, itemsText_joined items]
    simp [piece, Piece.text]
  | (before, some item, after) :: items => by
    rw [itemsText, joined, itemsText_joined items]
    simp [piece, Piece.text, element]

variable (pageSize) in
theorem membersText_joined : ∀ members, membersText members = joined (member pageSize) members
  | [] => rfl
  | (before, none, after) :: members => by
    rw [membersText, joined, membersText_joined members]
    simp [piece, Piece.text]
  | (before, some (key, x, y, value), after) :: members => by
    rw [membersText, joined, membersText_joined members]
    simp [piece, Piece.text, member]

variable (pageSize) in
theorem itemsReading_run :
    ∀ items read, itemsReading pageSize items read =
      (run (items.map (piece (element pageSize)))).map fun g => g read
  | [], read => rfl
  | (before, none, after) :: items, read => by
    rw [itemsReading, List.map_cons, run_missing rfl, List.isEmpty_map]
    split <;> rfl
  | (before, some item, after) :: items, read => by
    rw [itemsReading, List.map_cons]
    cases hitem : item.reading pageSize with
    | none =>
      have hcontent : (piece (element pageSize) (before, some item, after)).content =
        some (item.text, none) := by simp [piece, element, hitem]
      rw [run_rejected hcontent]
      rfl
    | some value =>
      have hcontent : (piece (element pageSize) (before, some item, after)).content =
        some (item.text, some fun elements => elements ++ [value]) := by
        simp [piece, element, hitem]
      rw [run_accepted hcontent, Option.bind_some, itemsReading_run items, Option.map_map]
      rfl

variable (pageSize) in
theorem membersReading_run : ∀ members read,
    membersReading pageSize members read = (run (members.map (piece (member pageSize)))).map
      fun g => g read
  | [], read => rfl
  | (before, none, after) :: members, read => by
    rw [membersReading, List.map_cons, run_missing rfl, List.isEmpty_map]
    split <;> rfl
  | (before, some (key, x, y, value), after) :: members, read => by
    rw [membersReading, List.map_cons]
    cases hvalue : value.reading pageSize with
    | none =>
      have hcontent :
          (piece (member pageSize) (before, some (key, x, y, value), after)).content =
            some (_, none) :=
        congrArg (fun o => some (_, Option.map (Members.set (JSONString.value pageSize key)) o))
          hvalue
      rw [run_rejected hcontent]
      rfl
    | some v =>
      have hcontent : (piece (member pageSize) (before, some (key, x, y, value), after)).content =
          some (_, some (Members.set (JSONString.value pageSize key) v)) :=
        congrArg (fun o => some (_, Option.map (Members.set (JSONString.value pageSize key)) o))
          hvalue
      rw [run_accepted hcontent, Option.bind_some, membersReading_run members, Option.map_map]
      rfl

/-! ### Rows -/

theorem rowText_append (elements others : List JSONLayout) :
    rowText (elements ++ others) = rowText elements ++ rowText others := by
  induction elements with
  | nil => rfl
  | cons e elements ih => rw [List.cons_append, rowText, rowText, ih, List.append_assoc]

theorem rowText_digits : ∀ {elements : List JSONLayout}, ValidRow elements →
    elements.all isInteger = true →
    (∀ b ∈ rowText elements, isDigit b = true) ∧ (elements ≠ [] → rowText elements ≠ [])
  | [], _, _ => ⟨List.forall_mem_nil _, fun h => absurd rfl h⟩
  | e :: elements, h, hall => by
    obtain ⟨he, hall⟩ := Bool.and_eq_true_iff.mp hall
    obtain ⟨hdigits, -⟩ := rowText_digits h.2 hall
    cases e with
    | integer digits =>
      obtain ⟨h0, hfirst⟩ := h.1
      refine ⟨fun b hb => (List.mem_append.mp hb).elim (hfirst b) (hdigits b), fun _ hnil =>
        h0 (List.append_eq_nil_iff.mp hnil).1⟩
    | _ => exact nomatch he

theorem validRow_iff : ∀ {elements : List JSONLayout}, ValidRow elements ↔ ∀ e ∈ elements, e.Valid
  | [] => by simp [ValidRow]
  | e :: elements => by
    have ih : ValidRow elements ↔ ∀ e ∈ elements, e.Valid := validRow_iff
    simp [ValidRow, ih]

/-- What is left of a row starts with no comma and no brace. -/
theorem rowText_blocks {e : JSONLayout} (elements : List JSONLayout) (t : BString) (h : e.Valid) :
    ∃ d t', rowText (e :: elements) ++ 93 :: t = d :: t' ∧
    Blocks d ∧ d ≠ 44 ∧ (e.isInteger = false → AfterNumber (d :: t')) := by
  obtain ⟨d, x, htext, hd, hcomma, hafter⟩ := text_blocks h
  refine ⟨d, x ++ (rowText elements ++ 93 :: t), by simp [rowText, htext], hd, hcomma,
    fun he b hb => ?_⟩
  obtain rfl := Option.some.inj hb
  exact ⟨hd.1, hafter he⟩

theorem makes_value {l : JSONLayout} (h : l.Valid) {o : Option Variable}
    (hjson : Makes pageSize json (characters (l.text ++ t)) t o) :
    Makes pageSize value (characters (l.text ++ t)) t o := by
  obtain ⟨b, x, htext, hb, -⟩ := starts_text h
  rw [htext] at hjson ⊢
  exact hjson.value hb

theorem row_digits {elements : List JSONLayout} (h0 : elements ≠ []) (h : ValidRow elements)
    (hall : elements.all isInteger = true) :
    (integer (rowText elements)).Valid := by
  obtain ⟨hdigits, hne⟩ := rowText_digits h hall
  exact ⟨hne h0, hdigits⟩

theorem row_text (elements others : List JSONLayout) (t : BString) :
    (row (elements ++ others)).text ++ t = 91 ::
      (rowText elements ++ (rowText others ++ 93 :: t)) := by
  simp [text, rowText_append]

/-- A row of integers is an array of one. -/
theorem row_accepted {elements : List JSONLayout} (h0 : elements ≠ []) (h : ValidRow elements)
    (hall : elements.all isInteger = true) (t : BString) :
    Makes pageSize JSONGrammar.array (characters ((row elements).text ++ t)) t
      (some (.array [.integer (ScriptParser.atol (rowText elements))])) := by
  have hdigits := row_digits h0 h hall
  let p : Piece (List Variable) :=
    ⟨[], [], some (rowText elements, some fun read =>
    read ++ [.integer (ScriptParser.atol (rowText elements))])⟩
  have hp : p.Holds pageSize Variable.array (.invoke .onarrayvalue value none) := by
    refine ⟨List.forall_mem_nil _, List.forall_mem_nil _, ?_, ?_⟩
    · intro content hcontent
      obtain rfl := Option.some.inj hcontent
      exact starts_text hdigits
    · intro content hcontent t ht
      obtain rfl := Option.some.inj hcontent
      exact (makes_value hdigits (integer_makes hdigits.1 hdigits.2 ht)).arrayItem
  have hall : ∀ q ∈ [p], q.Holds pageSize Variable.array (.invoke .onarrayvalue value none) := by
    intro q hq
    obtain rfl := List.mem_singleton.mp hq
    exact hp
  have harray := array_makes (t := t) hall
  have htext :
      (row elements).text ++ t =
        91 :: (p.text ++ following 93 t ([] : List (Piece (List Variable)))) := by
    simp [p, text, Piece.text, following]
  rw [htext]
  exact harray

theorem row_split : ∀ {elements : List JSONLayout}, ¬ elements.all isInteger = true →
    ∃ integers e others, elements = integers ++ e :: others ∧ integers.all isInteger = true ∧
      e.isInteger = false
  | [], h => absurd rfl h
  | e :: elements, h => by
    cases he : e.isInteger with
    | false => exact ⟨[], e, elements, rfl, rfl, he⟩
    | true =>
      rw [List.all_cons, he, Bool.true_and] at h
      obtain ⟨integers, last, others, heq, hall, hlast⟩ := row_split h
      refine ⟨e :: integers, last, others, congrArg (e :: ·) heq, ?_, hlast⟩
      rw [List.all_cons, he, hall]
      rfl

/-- A row is an array of one integer, or is rejected where its second element
would have to start. -/
theorem row_makes {elements : List JSONLayout} (hvalid : (row elements).Valid)
    (h : ∀ e ∈ elements, ∀ t, (e.isInteger = true → AfterNumber t) →
      Makes pageSize json (characters (e.text ++ t)) t (e.reading pageSize)) (t : BString) :
    Makes pageSize JSONGrammar.array (characters ((row elements).text ++ t)) t
      ((row elements).reading pageSize) := by
  obtain ⟨hlen, hrow⟩ := hvalid
  have hne : elements ≠ [] := fun hnil => by simp [hnil] at hlen
  by_cases hall : elements.all isInteger = true
  · rw [reading, if_pos hall]
    exact row_accepted hne hrow hall t
  rw [reading, if_neg hall]
  obtain ⟨integers, e, others, rfl, hintegers, he⟩ := row_split hall
  have hvalid := validRow_iff.mp hrow
  have hevalid := hvalid e (by simp)
  rw [row_text]
  by_cases h0 : integers = []
  · -- The first element is no integer, and something comes after it.
    subst h0
    obtain ⟨e', others, rfl⟩ : ∃ e' others', others = e' :: others' := by
      cases others with
      | nil => simp at hlen
      | cons e' others => exact ⟨e', others, rfl⟩
    obtain ⟨d, t', hrest, hd, hcomma, -⟩ := rowText_blocks others t (hvalid e' (by simp))
    have hvalue := makes_value hevalid (h e (by simp) (d :: t') fun htrue => by simp [he] at htrue)
    rw [rowText, List.nil_append, rowText, List.append_assoc, hrest]
    exact array_blocked ((starts_text hevalid).fresh _) hd hcomma hvalue
  · have hdigits := row_digits h0 (validRow_iff.mpr fun e he => hvalid e (by simp [he])) hintegers
    obtain ⟨d, t', hrest, hd, hcomma, hafter⟩ := rowText_blocks others t hevalid
    have hinteger : Makes pageSize json _ _ _ := integer_makes hdigits.1 hdigits.2 (hafter he)
    have hvalue := makes_value hdigits hinteger
    rw [hrest]
    exact array_blocked ((starts_text hdigits).fresh _) hd hcomma hvalue

/-! ### All layouts -/

theorem onvalue_set {i : ℕ} (hi : i = 5 ∨ i = 6) (v : Variable) (stack : List Variable)
    (value : BString) :
    ScriptParser.onvalue (v :: stack) (type i value) value = .ok (v :: stack) := by
  rcases hi with rfl | rfl <;> rfl

theorem array_json {x : BString} {o : Option Variable}
    (h : Makes pageSize JSONGrammar.array (characters (91 :: x)) t o) :
    Makes pageSize json (characters (91 :: x)) t o :=
  h.json (i := 5) rfl (by decide) (by decide) (by decide) (onvalue_set (Or.inl rfl))

theorem object_json {x : BString} {o : Option Variable}
    (h : Makes pageSize JSONGrammar.object (characters (123 :: x)) t o) :
    Makes pageSize json (characters (123 :: x)) t o :=
  h.json (i := 6) rfl (by decide) (by decide) (by decide) (onvalue_set (Or.inr rfl))

variable (pageSize)

theorem missing_holds {α : Type} {wrap : α → Variable} {item : JSONMatch} :
    Piece.Holds pageSize wrap item ⟨[], [], none⟩ :=
  ⟨List.forall_mem_nil _, List.forall_mem_nil _, nofun, nofun⟩

theorem holds_single {α : Type} {wrap : α → Variable} {item : JSONMatch} {p : Piece α}
    (h : p.Holds pageSize wrap item) :
    ∀ q ∈ [p], q.Holds pageSize wrap item := by
  intro q hq
  obtain rfl := List.mem_singleton.mp hq
  exact h

/-- A layout is an element. -/
theorem element_holds {l : JSONLayout} {before after : BString} (hbefore : Blank before)
    (hafter : Blank after) (hl : l.Valid)
    (h : ∀ t, AfterNumber t → Makes pageSize json (characters (l.text ++ t)) t
      (l.reading pageSize)) :
    (piece (element pageSize) (before, some l, after)).Holds pageSize Variable.array
    (.invoke .onarrayvalue value none) where
  before := hbefore
  after := hafter
  starts content hcontent := by
    obtain rfl := Option.some.inj hcontent
    exact starts_text hl
  given content hcontent t ht := by
    obtain rfl := Option.some.inj hcontent
    exact (makes_value hl (h t ht)).arrayItem

/-- A key and a layout are a member. -/
theorem member_holds {l : JSONLayout} {before after key x y : BString} (hbefore : Blank before)
    (hafter : Blank after) (hkey : Whole key)
    (hx : Blank x) (hy : Blank y) (hl : l.Valid)
    (h : ∀ t, AfterNumber t → Makes pageSize json (characters (l.text ++ t)) t
      (l.reading pageSize)) :
    (piece (member pageSize) (before, some (key, x, y, l), after)).Holds pageSize Variable.object
    (.invoke .onsetvalue keyValue none) where
  before := hbefore
  after := hafter
  starts content hcontent := by
    obtain rfl := Option.some.inj hcontent
    exact ⟨34, _, rfl, by decide, by decide⟩
  given content hcontent t ht := by
    obtain rfl := Option.some.inj hcontent
    have htext :
        (member pageSize (key, x, y, l)).1 ++ t =
          34 :: (key.escape ++ 34 :: (x ++ 58 :: (y ++ (l.text ++ t)))) := by
      simp [member]
    rw [htext]
    exact Makes.member hkey hx hy (starts_text hl) (makes_value hl (h t ht))

theorem array_layout {items : List (BString × Option JSONLayout × BString)}
    (h : ∀ p ∈ items.map (piece (element pageSize)), p.Holds pageSize Variable.array
      (.invoke .onarrayvalue value none)) (t : BString) :
    Makes pageSize JSONGrammar.array (characters ((array items).text ++ t)) t
      ((array items).reading pageSize) := by
  have htext : (array items).text ++ t = 91 :: (joined (element pageSize) items ++ 93 :: t) := by
    simp [text, ← itemsText_joined]
  rw [reading, itemsReading_run, htext, Option.map_map]
  cases items with
  | nil => exact array_makes (holds_single pageSize (missing_holds pageSize))
  | cons item items =>
    rw [joined_following]
    exact array_makes h

theorem object_layout
    {members : List (BString × Option (BString × BString × BString × JSONLayout) × BString)}
    (h : ∀ p ∈ members.map (piece (member pageSize)), p.Holds pageSize Variable.object
      (.invoke .onsetvalue keyValue none)) (t : BString) :
    Makes pageSize JSONGrammar.object (characters ((object members).text ++ t)) t
      ((object members).reading pageSize) := by
  have htext :
      (object members).text ++ t = 123 :: (joined (member pageSize) members ++ 125 :: t) := by
    simp [text, ← membersText_joined]
  rw [reading, membersReading_run, htext, Option.map_map]
  cases members with
  | nil => exact object_makes (holds_single pageSize (missing_holds pageSize))
  | cons member members =>
    rw [joined_following]
    exact object_makes h

mutual

/-- **Layouts.** A text that is laid out is read as its reading, or rejected
where that has none. -/
theorem makes : ∀ (l : JSONLayout), l.Valid → ∀ t, (l.isInteger = true → AfterNumber t) →
    Makes pageSize json (characters (l.text ++ t)) t (l.reading pageSize)
  | .undefined, _, t, _ => word_makes pageSize (i := 0) rfl (forall_of_all (by decide)) (by decide)
    rfl (by decide) fun _ => rfl
  | .null, _, t, _ =>
    word_makes pageSize (i := 1) rfl (forall_of_all (by decide)) (by decide) rfl (by decide)
      fun _ => rfl
  | .boolean b, _, t, _ => boolean_makes pageSize b t
  | .integer digits, h, t, ht => integer_makes h.1 h.2 (ht rfl)
  | .string s, h, t, _ => string_makes h t
  | .array items, h, t, _ => array_json (array_layout pageSize (items_hold items h) t)
  | .row elements, h, t, _ => array_json (row_makes h (row_hold elements h.2) t)
  | .object members, h, t, _ => object_json (object_layout pageSize (members_hold members h) t)

theorem items_hold : ∀ (items : List (BString × Option JSONLayout × BString)), ValidItems items →
    ∀ p ∈ items.map (piece (element pageSize)), p.Holds pageSize Variable.array
      (.invoke .onarrayvalue value none)
  | [], _, p, hp => nomatch hp
  | (before, none, after) :: items, h, p, hp => by
    rcases List.mem_cons.mp hp with rfl | hp
    · exact ⟨h.1, h.2.1, nofun, nofun⟩
    · exact items_hold items h.2.2 p hp
  | (before, some item, after) :: items, h, p, hp => by
    rcases List.mem_cons.mp hp with rfl | hp
    · exact element_holds pageSize h.1 h.2.1 h.2.2.1 fun t ht => makes item h.2.2.1 t fun _ => ht
    · exact items_hold items h.2.2.2 p hp

theorem row_hold : ∀ (elements : List JSONLayout), ValidRow elements → ∀ e ∈ elements, ∀ t,
    (e.isInteger = true → AfterNumber t) →
    Makes pageSize json (characters (e.text ++ t)) t (e.reading pageSize)
  | [], _, e, he => nomatch he
  | e' :: elements, h, e, he => by
    rcases List.mem_cons.mp he with heq | he
    · rw [heq]
      exact makes e' h.1
    · exact row_hold elements h.2 e he

theorem members_hold :
    ∀ (members : List (BString × Option (BString × BString × BString × JSONLayout) × BString)),
      ValidMembers members →
    ∀ p ∈ members.map (piece (member pageSize)), p.Holds pageSize Variable.object
      (.invoke .onsetvalue keyValue none)
  | [], _, p, hp => nomatch hp
  | (before, none, after) :: members, h, p, hp => by
    rcases List.mem_cons.mp hp with rfl | hp
    · exact ⟨h.1, h.2.1, nofun, nofun⟩
    · exact members_hold members h.2.2 p hp
  | (before, some (key, x, y, layout), after) :: members, h, p, hp => by
    obtain ⟨hbefore, hafter, hkey, hx, hy, hlayout, hmembers⟩ := h
    rcases List.mem_cons.mp hp with rfl | hp
    · exact member_holds pageSize hbefore hafter hkey hx hy hlayout fun t ht =>
        makes layout hlayout t fun _ => ht
    · exact members_hold members hmembers p hp

end

/-! ### Without blank space -/

mutual

/-- The layout without its blank space. -/
def compact : JSONLayout → JSONLayout
  | array items => array (compactItems items)
  | row elements => row (compactRow elements)
  | object members => object (compactMembers members)
  | l => l

def compactItems : List (BString × Option JSONLayout × BString) →
    List (BString × Option JSONLayout × BString)
  | [] => []
  | (_, none, _) :: items => ([], none, []) :: compactItems items
  | (_, some item, _) :: items => ([], some (compact item), []) :: compactItems items

def compactRow : List JSONLayout → List JSONLayout
  | [] => []
  | element :: elements => compact element :: compactRow elements

def compactMembers : List (BString × Option (BString × BString × BString × JSONLayout) × BString) →
    List (BString × Option (BString × BString × BString × JSONLayout) × BString)
  | [] => []
  | (_, none, _) :: members => ([], none, []) :: compactMembers members
  | (_, some (key, _, _, layout), _) :: members =>
    ([], some (key, [], [], compact layout), []) :: compactMembers members

end

theorem isInteger_compact : ∀ l : JSONLayout, l.compact.isInteger = l.isInteger
  | .undefined | .null | .boolean _ | .integer _ | .string _ => by simp only [compact]
  | .array _ | .row _ | .object _ => by simp only [compact, isInteger]

theorem all_compactRow : ∀ elements, (compactRow elements).all isInteger = elements.all isInteger
  | [] => rfl
  | e :: elements =>
    by rw [compactRow, List.all_cons, isInteger_compact, all_compactRow elements, List.all_cons]

theorem rowText_compact : ∀ {elements : List JSONLayout}, elements.all isInteger = true →
    rowText (compactRow elements) = rowText elements
  | [], _ => rfl
  | .integer digits :: elements, h => by
    rw [List.all_cons, Bool.and_eq_true] at h
    simp only [compactRow, rowText, rowText_compact h.2, compact]

theorem isEmpty_compactItems (items : List (BString × Option JSONLayout × BString)) :
    (compactItems items).isEmpty = items.isEmpty := by
  cases items with
  | nil => rfl
  | cons item items => obtain ⟨_, _ | _, _⟩ := item <;> rfl

theorem isEmpty_compactMembers
    (members : List (BString × Option (BString × BString × BString × JSONLayout) × BString)) :
    (compactMembers members).isEmpty = members.isEmpty := by
  cases members with
  | nil => rfl
  | cons member members => obtain ⟨_, _ | _, _⟩ := member <;> rfl

mutual

theorem reading_compact : ∀ l : JSONLayout, l.compact.reading pageSize = l.reading pageSize
  | .undefined | .null | .boolean _ | .integer _ | .string _ => by simp only [compact]
  | .array items => by rw [compact, reading, itemsReading_compact items, reading]
  | .row elements => by
    rw [compact, reading, all_compactRow, reading]
    split_ifs with hall
    · rw [rowText_compact hall]
    · rfl
  | .object members => by rw [compact, reading, membersReading_compact members, reading]

theorem itemsReading_compact : ∀ items read,
    itemsReading pageSize (compactItems items) read = itemsReading pageSize items read
  | [], _ => rfl
  | (_, none, _) :: items, read =>
    by rw [compactItems, itemsReading, isEmpty_compactItems, itemsReading]
  | (_, some item, _) :: items, read => by
    rw [compactItems, itemsReading, reading_compact item, itemsReading]
    congr 1
    funext value
    exact itemsReading_compact items _

theorem membersReading_compact : ∀ members read, membersReading pageSize (compactMembers members)
    read = membersReading pageSize members read
  | [], _ => rfl
  | (_, none, _) :: members, read =>
    by rw [compactMembers, membersReading, isEmpty_compactMembers, membersReading]
  | (_, some (key, _, _, layout), _) :: members, read => by
    rw [compactMembers, membersReading, reading_compact layout, membersReading]
    congr 1
    funext value
    exact membersReading_compact members _

end

theorem blank_nil : Blank [] := List.forall_mem_nil _

mutual

theorem valid_compact : ∀ l : JSONLayout, l.Valid → l.compact.Valid
  | .undefined, h | .null, h | .boolean _, h | .integer _, h | .string _,
    h => by simpa only [compact] using h
  | .array items, h => by rw [compact]; exact validItems_compact items h
  | .row elements, h =>
    by rw [compact]; exact ⟨(validRow_compact elements h.2).1 ▸ h.1,
      (validRow_compact elements h.2).2⟩
  | .object members, h => by rw [compact]; exact validMembers_compact members h

theorem validItems_compact : ∀ items, ValidItems items → ValidItems (compactItems items)
  | [], h => h
  | (_, none, _) :: items, h => ⟨blank_nil, blank_nil, validItems_compact items h.2.2⟩
  | (_, some item, _) :: items, h =>
    ⟨blank_nil, blank_nil, valid_compact item h.2.2.1, validItems_compact items h.2.2.2⟩

theorem validRow_compact :
    ∀ elements, ValidRow elements → elements.length = (compactRow elements).length ∧
      ValidRow (compactRow elements)
  | [], h => ⟨rfl, h⟩
  | e :: elements, h =>
    ⟨congrArg (· + 1) (validRow_compact elements h.2).1, valid_compact e h.1,
      (validRow_compact elements h.2).2⟩

theorem validMembers_compact : ∀ members, ValidMembers members →
    ValidMembers (compactMembers members)
  | [], h => h
  | (_, none, _) :: members, h => ⟨blank_nil, blank_nil, validMembers_compact members h.2.2⟩
  | (_, some (_, _, _, layout), _) :: members, h =>
    ⟨blank_nil, blank_nil, h.2.2.1, blank_nil, blank_nil, valid_compact layout h.2.2.2.2.2.1,
      validMembers_compact members h.2.2.2.2.2.2⟩

end

/-! ### What is accepted -/

mutual

/-- No item is missing but after the last comma, and the rows are of integers. -/
def Complete : JSONLayout → Prop
  | array items => CompleteItems items
  | row elements => elements.all isInteger = true
  | object members => CompleteMembers members
  | _ => True

def CompleteItems : List (BString × Option JSONLayout × BString) → Prop
  | [] => True
  | (_, none, _) :: items => items = []
  | (_, some item, _) :: items => Complete item ∧ CompleteItems items

def CompleteMembers :
    List (BString × Option (BString × BString × BString × JSONLayout) × BString) → Prop
  | [] => True
  | (_, none, _) :: members => members = []
  | (_, some (_, _, _, layout), _) :: members => Complete layout ∧ CompleteMembers members

end

mutual

theorem reading_isSome : ∀ l : JSONLayout, (l.reading pageSize).isSome ↔ l.Complete
  | .undefined | .null | .boolean _ | .integer _ | .string _ => by simp [reading, Complete]
  | .array items => by rw [reading, Option.isSome_map, itemsReading_isSome items, Complete]
  | .row elements => by
    rw [reading, Complete]
    split_ifs with hall <;> simp [hall]
  | .object members => by rw [reading, Option.isSome_map, membersReading_isSome members, Complete]

theorem itemsReading_isSome : ∀ items read, (itemsReading pageSize items read).isSome ↔
    CompleteItems items
  | [], _ => by simp [itemsReading, CompleteItems]
  | (_, none, _) :: items, read => by
    rw [itemsReading, CompleteItems]
    cases items <;> simp
  | (_, some item, _) :: items, read => by
    rw [itemsReading, CompleteItems, ← reading_isSome item]
    cases reading pageSize item with
    | none => simp
    | some value => simpa using itemsReading_isSome items (read ++ [value])

theorem membersReading_isSome : ∀ members read, (membersReading pageSize members read).isSome ↔
    CompleteMembers members
  | [], _ => by simp [membersReading, CompleteMembers]
  | (_, none, _) :: members, read => by
    rw [membersReading, CompleteMembers]
    cases members <;> simp
  | (_, some (key, _, _, layout), _) :: members, read => by
    rw [membersReading, CompleteMembers, ← reading_isSome layout]
    cases reading pageSize layout with
    | none => simp
    | some value =>
      simpa using membersReading_isSome members
        (Members.set (JSONString.value pageSize key) value read)

end

end JSONLayout

/-! ### The parser -/

namespace ScriptParser

open JSONGrammar

open Match (Comes)

variable (pageSize : ℕ+)

/-- What is the root of the stack when the parser has accepted the text and all
of it. -/
def Parses (t : BString) (v : Variable) : Prop :=
  ∃ n, ∀ fuel, n ≤ fuel →
    Parser.readText (program pageSize) fuel scriptParser t = .ok ([], some true) ∧
    ∃ m r stack, (Parser.read (program pageSize) fuel (.ofMatch scriptParser) t >>= Parser.eof
      (program pageSize) fuel) =
      .ok ⟨.object (.parser stack) m r, some true⟩ ∧ stack.getLast? = some v

theorem onsuccess_hear {call : JSONCall} {m : JSONMatch} {stack stack' : List Variable}
    (h : ScriptParser.hear stack call m = .ok stack') :
    (program pageSize).onsuccess call m (.parser stack) = .ok (.parser stack') := by
  show onsuccess pageSize call m (.parser stack) = _
  cases call <;> simp only [onsuccess, h] <;> rfl

theorem onsuccess_heard {calls : List (JSONCall × JSONMatch)} {stack stack' : List Variable}
    (h : heard calls stack = .ok stack') :
    calls.foldlM (fun self call => (program pageSize).onsuccess call.1 call.2 self)
      (.parser stack) = .ok (.parser stack') := by
  induction calls generalizing stack with
  | nil => exact congrArg (Except.map JSONObject.parser) h
  | cons call calls ih =>
    rw [heard, List.foldlM_cons] at h
    rw [List.foldlM_cons]
    cases hear : ScriptParser.hear stack call.1 call.2 with
    | error fault =>
      rw [hear] at h
      cases h
    | ok next =>
      rw [hear] at h
      rw [onsuccess_hear pageSize hear]
      exact ih h

/-- A text is parsed as what it is read as. -/
theorem parses_iff {l : JSONLayout} (h : l.Valid) (v : Variable) : Parses pageSize l.text v ↔
    l.reading pageSize = some v := by
  have hmakes := l.makes pageSize h [] fun _ => nofun
  rw [List.append_nil] at hmakes
  cases hreading : l.reading pageSize with
  | none =>
    rw [hreading] at hmakes
    obtain ⟨_, d, t', calls, hcomes, hd, hheard⟩ := hmakes
    obtain ⟨pushed, hpushed⟩ := hheard []
    obtain ⟨n, hn⟩ :=
      Parser.readText_of_comes (hcomes.object (fun _ => rfl) rfl (onsuccess_heard pageSize hpushed))
    refine ⟨fun hparses => ?_, nofun⟩
    obtain ⟨n', hn'⟩ := hparses
    have htext := (hn' (max n n') (Nat.le_max_right _ _)).1
    rw [scriptParser, (hn (max n n') (Nat.le_max_left _ _)).1] at htext
    exact nomatch (Prod.mk.inj (Run.ok_inj.mp htext)).2
  | some w =>
    rw [hreading] at hmakes
    obtain ⟨_, calls, hcomes, hheard⟩ := hmakes
    obtain ⟨n, hn⟩ :=
      Parser.readText_of_comes
      (hcomes.object (fun _ => rfl) rfl (onsuccess_heard pageSize (hheard [])))
    rw [Parser.characters_nil] at hn
    constructor
    · rintro ⟨n', hn'⟩
      obtain ⟨-, m, r, stack, hread, hroot⟩ := hn' (max n n') (Nat.le_max_right _ _)
      rw [scriptParser, (hn (max n n') (Nat.le_max_left _ _)).2] at hread
      obtain ⟨hobject, -⟩ := Parser.mk.inj (Run.ok_inj.mp hread)
      obtain ⟨hstack, -, -⟩ := Match.object.inj hobject
      obtain rfl := JSONObject.parser.inj hstack
      exact hroot
    · intro heq
      obtain rfl := Option.some.inj heq
      exact ⟨n, fun fuel hf => ⟨(hn fuel hf).1, _, _, [w], (hn fuel hf).2, rfl⟩⟩

/-- **Blank space.** A text is parsed as a variable exactly when it is without
its blank space, and as some variable exactly when it is complete. -/
theorem parses_compact {l : JSONLayout} (h : l.Valid) :
    (∀ v, Parses pageSize l.text v ↔ Parses pageSize l.compact.text v) ∧
      ((∃ v, Parses pageSize l.text v) ↔ l.Complete) := by
  constructor
  · intro v
    rw [parses_iff pageSize h, parses_iff pageSize (l.valid_compact h), l.reading_compact]
  · rw [← l.reading_isSome pageSize, Option.isSome_iff_exists]
    exact exists_congr (parses_iff pageSize h)

/-- `[1 ,\n]` -/
theorem parses_compact_comma :
    (∀ v, Parses 4096 (JSONLayout.array [([], some (.integer [49]), [32]), ([10], none, [])]).text
      v ↔
      Parses 4096
        (JSONLayout.array [([], some (.integer [49]), [32]), ([10], none, [])]).compact.text v) ∧
    ((∃ v, Parses 4096 (JSONLayout.array [([], some (.integer [49]), [32]), ([10], none, [])]).text
      v) ↔
      (JSONLayout.array [([], some (.integer [49]), [32]), ([10], none, [])]).Complete) := by
  have hblank : JSONLayout.Blank [32] ∧ JSONLayout.Blank [10] :=
    ⟨forall_of_all (by decide), forall_of_all (by decide)⟩
  have hdigit : ∀ b ∈ [(49 : UInt8)], isDigit b = true := forall_of_all (by decide)
  exact parses_compact 4096 ⟨JSONLayout.blank_nil, hblank.1, ⟨List.cons_ne_nil _ _, hdigit⟩,
    hblank.2, JSONLayout.blank_nil, trivial⟩

end ScriptParser

end BeeFish
