/-
# Writing a JSON node

`JSONPath::write` (Database/JSONPath.hpp) writes what is stored at a node and
below it. In an object the properties that are named by other users are left
out, and the property of the user is named `my`. A comma comes after a member
if the iterator has another property, and this may be one that is left out.

What is written is the JSON text of the visible part (`shown`) exactly when no
hidden property comes last after a visible one, and the texts of the scalars
are JSON and the strings have no control characters without a mark of their own
(`Writable`, `lex_write`).

Key definitions: `StoredJSON`, `write`, `shown`, `Writable`.
-/
import BeeFish.Lib.JsonText
import BeeFish.JSONKey
import BeeFish.Escape

namespace BeeFish

open JsonText BString

/-! ### Writing -/

/-- What is stored at a JSON node: the text of a scalar if it has one, the
pages of a string, the items of an array and the properties of an object in
the order of their positions. -/
inductive StoredJSON where
  | undefined
  | null
  | boolean (value : Option BString)
  | integer (value : Option BString)
  | number (value : Option BString)
  | string (pages : List BString)
  | array (items : List StoredJSON)
  | object (isDeadEnd : Bool) (properties : List (BString × StoredJSON))

namespace StoredJSON

def type : StoredJSON → JSONType
  | undefined => .undefined
  | null => .null
  | boolean _ => .boolean
  | integer _ => .integer
  | number _ => .number
  | string _ => .string
  | array _ => .array
  | object _ _ => .object

/-- `JSONPath::tabs`, of `TAB_SPACES` spaces each. -/
def tabs (tabCount : ℕ) : BString := List.replicate (tabCount * 3) 32

section

variable (auth : Authentication) (users : BString → Bool)

/-- The key as it is written; none for one that is skipped. -/
def visibleKey (key : BString) : Option BString :=
  if key = auth.userId then some (text "my")
  else if users key then none
  else some key

mutual

/-- `JSONPath::write` -/
def write : StoredJSON → ℕ → BString
  | undefined, _ => text "undefined"
  | null, _ => text "null"
  | boolean value, _ => value.getD (text "null")
  | integer value, _ => value.getD (text "null")
  | number value, _ => value.getD (text "null")
  | string pages, _ => writeString pages
  | array items, tabCount =>
    let count := items.length
    text "[" ++ (if count > 1 then text "\n" ++ tabs (tabCount + 1) else []) ++
      writeItems items 1 count tabCount ++
      (if count > 1 then text "\n" ++ tabs tabCount else []) ++ text "]"
  | object isDeadEnd properties, tabCount =>
    if isDeadEnd then text "{}"
    else
      let (members, count) := writeProperties properties 0 tabCount
      text "\x7b" ++ text "\n" ++ members ++ (if count > 0 then text "\n" ++ tabs tabCount
        else []) ++ text "\x7d"

/-- The loop over the items. -/
def writeItems : List StoredJSON → ℕ → ℕ → ℕ → BString
  | [], _, _, _ => []
  | item :: items, index, count, tabCount =>
    (if item.type = .undefined then text "null" else write item (if count = 1 then tabCount + 1 - 1
      else tabCount + 1)) ++
      (if index < count then text ",\n" ++ tabs (tabCount + 1) else []) ++ writeItems items
        (index + 1) count tabCount

/-- The loop over the properties, with the number of those written. -/
def writeProperties : List (BString × StoredJSON) → ℕ → ℕ → BString × ℕ
  | [], count, _ => ([], count)
  | (key, value) :: properties, count, tabCount =>
    match visibleKey auth users key with
    | none => writeProperties properties count tabCount
    | some name =>
      let (members, count) := writeProperties properties (count + 1) tabCount
      (tabs (tabCount + 1) ++ text "\"" ++ name.escape ++ text "\": " ++
        (if value.type = .undefined then text "null" else write value (tabCount + 1)) ++
        -- the iterator is not at the end
        (if properties ≠ [] then text ",\n" else []) ++ members, count)

end

/-! ### The visible part -/

mutual

/-- The JSON value of a node for the one who reads it. -/
def shown : StoredJSON → Json
  | undefined => .scalar (text "null")
  | null => .scalar (text "null")
  | boolean value => .scalar (value.getD (text "null"))
  | integer value => .scalar (value.getD (text "null"))
  | number value => .scalar (value.getD (text "null"))
  | string pages => .string pages.flatten
  | array items => .array (shownItems items)
  | object _ properties => .object (shownProperties properties)

def shownItems : List StoredJSON → List Json
  | [] => []
  | item :: items => shown item :: shownItems items

def shownProperties : List (BString × StoredJSON) → List (BString × Json)
  | [] => []
  | (key, value) :: properties =>
    match visibleKey auth users key with
    | none => shownProperties properties
    | some name => (name, shown value) :: shownProperties properties

end

/-- The control characters are those with a mark of their own. -/
def Marked (s : BString) : Prop := ∀ b ∈ s, b < 32 → b ∈ [8, 9, 10, 12, 13]

instance (s : BString) : Decidable (Marked s) := inferInstanceAs (Decidable (∀ b ∈ s, _))

mutual

/-- In the visible part the texts of the scalars are JSON, the control
characters of strings and keys have marks, and after a visible property comes
another one or no property. -/
def Writable : StoredJSON → Prop
  | undefined => True
  | null => True
  | boolean value => isScalar (value.getD (text "null"))
  | integer value => isScalar (value.getD (text "null"))
  | number value => isScalar (value.getD (text "null"))
  | string pages => Marked pages.flatten
  | array items => WritableItems items
  | object _ properties => WritableProperties properties

def WritableItems : List StoredJSON → Prop
  | [] => True
  | item :: items => Writable item ∧ WritableItems items

def WritableProperties : List (BString × StoredJSON) → Prop
  | [] => True
  | (key, value) :: properties =>
    match visibleKey auth users key with
    | none => WritableProperties properties
    | some name =>
      (Marked name ∧ Writable value) ∧
        (properties ≠ [] → shownProperties auth users properties ≠ []) ∧
        WritableProperties properties

end

end

/-! ### What the parser stores -/

/-- A text that no space or mark ends. -/
def Bare (value : BString) : Prop :=
  value ≠ [] ∧ ∀ b ∈ value, isSpace b = false ∧ punctuation b = none ∧ b ≠ 34

instance (value : BString) : Decidable (Bare value) := inferInstanceAs (Decidable (_ ∧ _))

mutual

/-- The texts of scalars have no spaces or marks, the pages of strings and the
keys have whole characters, and a node with properties is no dead end. -/
def Stored : StoredJSON → Prop
  | undefined => True
  | null => True
  | boolean value => ∀ text ∈ value, Bare text
  | integer value => ∀ text ∈ value, Bare text
  | number value => ∀ text ∈ value, Bare text
  | string pages => ∀ page ∈ pages, Whole page
  | array items => StoredItems items
  | object isDeadEnd properties => (isDeadEnd → properties = []) ∧ StoredProperties properties

def StoredItems : List StoredJSON → Prop
  | [] => True
  | item :: items => Stored item ∧ StoredItems items

def StoredProperties : List (BString × StoredJSON) → Prop
  | [] => True
  | (key, value) :: properties => Whole key ∧ Stored value ∧ StoredProperties properties

end

/-! ### Strings -/

theorem whole_append {s t : BString} (hs : Whole s) (ht : Whole t) : Whole (s ++ t) := by
  obtain ⟨cs, hcs, rfl⟩ := hs
  obtain ⟨ds, hds, rfl⟩ := ht
  exact ⟨cs ++ ds, fun c hc => (List.mem_append.mp hc).elim (hcs c) (hds c),
    List.flatten_append.symm⟩

theorem whole_flatten : ∀ {pages : List BString}, (∀ page ∈ pages, Whole page) → Whole pages.flatten
  | [], _ => ⟨[], nofun, rfl⟩
  | page :: _, h =>
    whole_append (h page List.mem_cons_self) (whole_flatten fun p hp =>
      h p (List.mem_cons_of_mem _ hp))

theorem marked_append {s t : BString} : Marked (s ++ t) ↔ Marked s ∧ Marked t := by
  simp [Marked, or_imp, forall_and]

/-- A character of one byte in a string: it stands for itself or has a mark, or
it is not read. -/
theorem lexFrom_ascii {b : UInt8} (hb : b < 0x80) (value rest : BString) :
    lexFrom (.string value none) (escapeChar [b] ++ rest) =
      if Marked [b] then lexFrom (.string (value ++ [b]) none) rest else none := by
  by_cases hmark : b ∈ [34, 92, 8, 12, 13, 10, 9]
  · have hm : Marked [b] := by
      simp only [List.mem_cons, List.not_mem_nil, or_false] at hmark
      rcases hmark with rfl | rfl | rfl | rfl | rfl | rfl | rfl <;> decide +kernel
    rw [if_pos hm]
    simp only [List.mem_cons, List.not_mem_nil, or_false] at hmark
    rcases hmark with rfl | rfl | rfl | rfl | rfl | rfl | rfl <;> exact lexFrom_escape (by decide)
      (by decide)
  simp only [List.mem_cons, List.not_mem_nil, or_false, not_or] at hmark
  obtain ⟨h34, h92, h8, h12, h13, h10, h9⟩ := hmark
  by_cases h11 : b = 11
  · -- the mark `v` is not one of JSON
    subst h11
    have hback : (Mode.string value none).step 92 = some ([], .escape value none) := by
      simp [Mode.step]
    have hv : (Mode.escape value none).step 118 = none := by simp [Mode.step, unescape]
    rw [show escapeChar [11] = [92, 118] by decide, if_neg (by decide), List.cons_append,
      lexFrom_step hback, List.cons_append,
      lexFrom_stuck hv]
    rfl
  have hesc : escapeChar [b] = [b] := by simp [escapeChar, h34, h92, h8, h12, h13, h10, h9, h11, hb]
  rw [hesc]
  by_cases h32 : b < 32
  · rw [if_neg (by simp [Marked, h32, h8, h9, h10, h12, h13]), List.cons_append,
      lexFrom_stuck (by simp [Mode.step, h92, h32])]
  · rw [if_pos (by simp [Marked, h32]), lexFrom_raw (by simp [h34, h92, UInt8.not_lt.mp h32])]

theorem lexFrom_char {c : BString} (hc : Utf8.IsChar c) (value rest : BString) :
    lexFrom (.string value none) (escapeChar c ++ rest) =
      if Marked c then lexFrom (.string (value ++ c) none) rest else none := by
  rcases hc.ascii_or with ⟨b, hb, rfl⟩ | ⟨hlong, hhigh⟩
  · exact lexFrom_ascii hb value rest
  · have hraw : ∀ b ∈ c, 32 ≤ b ∧ b ≠ 34 ∧ b ≠ 92 := fun b hb => by
      have := UInt8.le_iff_toNat_le.mp (hhigh b hb)
      refine ⟨UInt8.le_iff_toNat_le.mpr ?_, ?_, ?_⟩
      · exact Nat.le_trans (by decide) this
      · rintro rfl
        exact absurd this (by decide)
      · rintro rfl
        exact absurd this (by decide)
    have hm : Marked c := fun b hb h32 => absurd h32 (UInt8.not_lt.mpr (hraw b hb).1)
    rw [escapeChar_long hlong, if_pos hm, lexFrom_raw hraw]

/-- The escaped characters of a string are read up to one without a mark. -/
theorem lexFrom_text {rest : BString} : ∀ {cs : List BString}, Utf8.IsText cs → ∀ value : BString,
    lexFrom (.string value none) (cs.flatMap escapeChar ++ 34 :: rest) =
      if Marked cs.flatten then lexFrom (.string (value ++ cs.flatten) none) (34 :: rest) else none
  | [], _, value => by simp [Marked]
  | c :: cs, ht, value => by
    have ih := @lexFrom_text rest cs (fun k hk => ht k (List.mem_cons_of_mem _ hk)) (value ++ c)
    rw [List.flatMap_cons, List.append_assoc, lexFrom_char (ht c List.mem_cons_self), ih,
      List.flatten_cons, List.append_assoc]
    by_cases hc : Marked c <;> simp [marked_append, hc]

/-- What `escape` writes of whole characters between quotes. -/
theorem reads_text {cs : List BString} (ht : Utf8.IsText cs) {P : BString → Prop} :
    Reads P ([34] ++ cs.flatMap escapeChar ++ [34]) [.string cs.flatten] (Marked cs.flatten) :=
  .string fun rest => by simpa using lexFrom_text ht []

theorem reads_string {pages : List BString} (h : ∀ page ∈ pages, Whole page) {P : BString → Prop} :
    Reads P (writeString pages) [.string pages.flatten] (Marked pages.flatten) := by
  obtain ⟨cs, hcs, heq⟩ := whole_flatten h
  rw [writeString, (writePages_eq hcs heq).mpr h, heq]
  exact reads_text hcs

theorem reads_key {key : BString} (h : Whole key) {P : BString → Prop} :
    Reads P ([34] ++ key.escape ++ [34]) [.string key] (Marked key) := by
  obtain ⟨cs, hcs, rfl⟩ := h
  rw [escape_text hcs]
  exact reads_text hcs

/-! ### Layout -/

variable {P : BString → Prop}

theorem reads_tabs (tabCount : ℕ) : Reads P (tabs tabCount) [] True :=
  .spaces fun b hb => by
    rw [List.eq_of_mem_replicate hb]
    decide

theorem reads_line (tabCount : ℕ) : Reads P (text "\n" ++ tabs tabCount) [] True :=
  .spaces fun b hb => by
    have hline : ∀ c ∈ text "\n", isSpace c := by decide +kernel
    rcases List.mem_append.mp hb with hb | hb
    · exact hline b hb
    · rw [List.eq_of_mem_replicate hb]
      decide

theorem reads_comma : Reads P (text ",\n") [.comma] True :=
  (Reads.append (P := fun _ => True) (.mark rfl) (.spaces (x := [10]) (by decide +kernel))
    fun _ _ => trivial).congr and_self_iff

theorem reads_scalar {value : BString} (h : Bare value) :
    Reads Ends value [.scalar value] (isScalar value) :=
  .scalar h.1 (fun b hb => ⟨(h.2 b hb).1, (h.2 b hb).2.1⟩) fun hq =>
    (h.2 34 (List.mem_of_mem_head? hq)).2.2 rfl

theorem bare_null : Bare (text "null") := by decide +kernel

theorem reads_null : Reads Ends (text "null") [.scalar (text "null")] True :=
  (reads_scalar bare_null).congr (by decide +kernel)

theorem reads_getD {value : Option BString} (h : ∀ text ∈ value, Bare text) :
    Reads Ends (value.getD (text "null")) [.scalar (value.getD (text "null"))]
      (isScalar (value.getD (text "null"))) := by
  cases value with
  | none => exact reads_scalar bare_null
  | some value => exact reads_scalar (h value rfl)

variable {auth : Authentication} {users : BString → Bool}

theorem whole_visibleKey {key name : BString} (h : Whole key)
    (hs : visibleKey auth users key = some name) : Whole name := by
  unfold visibleKey at hs
  split_ifs at hs
  · rw [← Option.some.inj hs]
    refine ⟨[[109], [121]], ?_, by decide⟩
    intro c hc
    simp only [List.mem_cons, List.not_mem_nil, or_false] at hc
    rcases hc with rfl | rfl <;> exact Utf8.isChar_ascii (by decide)
  · rwa [← Option.some.inj hs]

/-- The name of a member. -/
theorem reads_name {name : BString} (h : Whole name) (tabCount : ℕ) :
    Reads P (tabs tabCount ++ text "\"" ++ name.escape ++ text "\": ") [.string name, .colon]
      (Marked name) := by
  have hcolon : Reads P [58, 32] [.colon] True :=
    (Reads.append (P := fun _ => True) (.mark rfl) (.spaces (x := [32]) (by decide +kernel))
      fun _ _ => trivial).congr and_self_iff
  have hquoted := Reads.append (P := fun _ => True) (reads_key h) hcolon fun _ _ => trivial
  have hall := Reads.append (P := fun _ => True) (reads_tabs tabCount) hquoted fun _ _ => trivial
  have heq :
      tabs tabCount ++ text "\"" ++ name.escape ++ text "\": " =
        tabs tabCount ++ ([34] ++ name.escape ++ [34] ++ [58, 32]) := by
    rw [show text "\"" = [34] by decide, show text "\": " = [34, 58, 32] by decide]
    simp
  rw [heq]
  exact hall.congr (by simp)

theorem ends_comma (s : BString) : Ends (text ",\n" ++ s) := by
  rw [show text ",\n" = [44, 10] by decide]
  exact Ends.cons (by decide) _

/-- What comes after the items or the members: a line, or none, and the mark
that closes them. -/
theorem line_or (p : Prop) [Decidable p] (tabCount : ℕ) :
    (if p then text "\n" ++ tabs tabCount else []) = [] ∨
    ∃ tabCount', (if p then text "\n" ++ tabs tabCount else []) = text "\n" ++ tabs tabCount' := by
  split_ifs
  · exact Or.inr ⟨tabCount, rfl⟩
  · exact Or.inl rfl

theorem reads_close {line mark : BString} {b : UInt8} {token : Token}
    (hline : line = [] ∨ ∃ tabCount, line = text "\n" ++ tabs tabCount)
    (hmark : mark = [b]) (hb : Mode.start b = ([token], .between))
    (hends : (isSpace b || (punctuation b).isSome) = true) :
    Reads P (line ++ mark) [token] True ∧ ∀ rest, Ends (line ++ mark ++ rest) := by
  have hclose : Reads P mark [token] True := by
    rw [hmark]
    exact .mark hb
  rcases hline with rfl | ⟨tabCount, rfl⟩
  · refine ⟨hclose, fun rest => ?_⟩
    rw [hmark]
    exact Ends.cons hends rest
  · refine ⟨(Reads.append (P := fun _ => True) (reads_line tabCount) hclose fun _ _ =>
      trivial).congr and_self_iff, fun rest => ?_⟩
    rw [show text "\n" = [10] by decide]
    exact Ends.cons (by decide) _

/-- A node that is an item or the value of a property. -/
theorem reads_child {node : StoredJSON} {tabCount : ℕ}
    (h : node.type ≠ .undefined → Reads Ends (write auth users node tabCount)
      (shown auth users node).tokens (Writable auth users node)) :
    Reads Ends (if node.type = .undefined then text "null" else write auth users node tabCount)
      (shown auth users node).tokens (Writable auth users node) := by
  by_cases hu : node.type = .undefined
  · rw [if_pos hu]
    cases node with
    | undefined => exact reads_null
    | _ => exact absurd hu nofun
  · rw [if_neg hu]
    exact h hu

/-! ### The text of a node -/

mutual

theorem reads_write : ∀ (node : StoredJSON) (tabCount : ℕ), Stored node → node.type ≠ .undefined →
    Reads Ends (write auth users node tabCount) (shown auth users node).tokens
      (Writable auth users node)
  | undefined, _, _, hu => absurd rfl hu
  | null, _, _, _ => reads_null
  | boolean _, _, h, _ => reads_getD h
  | integer _, _, h, _ => reads_getD h
  | number _, _, h, _ => reads_getD h
  | string _, _, h, _ => (reads_string h).mono fun _ _ => trivial
  | array items, tabCount, h, _ => by
    have hitems := reads_items items tabCount h (Nat.add_comm 1 items.length)
    have hopen :
        Reads (fun _ => True)
          (text "[" ++ if items.length > 1 then text "\n" ++ tabs (tabCount + 1) else [])
          [.leftBracket] True := by
      rw [show text "[" = [91] by decide]
      refine (show Reads _ _ ([.leftBracket] ++ []) _ from .append (P := fun _ => True) (.mark rfl)
        ?_ fun _ _ => trivial).congr
        and_self_iff
      split_ifs
      · exact reads_line _
      · exact .nil
    obtain ⟨hclose, hends⟩ :=
      reads_close (P := Ends) (b := 93) (line_or (items.length > 1) tabCount)
      (by decide : text "]" = [93])
      rfl (by decide)
    have hall := hopen.append (hitems.append hclose fun rest _ => hends rest) fun _ _ => trivial
    simpa [write, shown, Json.tokens, Writable] using hall
  | object true properties, tabCount, ⟨hdead, _⟩, _ => by
    have hnone : properties = [] := hdead rfl
    subst hnone
    have hbrace : Reads Ends [123, 125] [.leftBrace, .rightBrace] True :=
      (Reads.append (P := fun _ => True) (.mark rfl) (.mark (b := 125) rfl) fun _ _ =>
        trivial).congr and_self_iff
    rw [write, if_pos rfl, show text "{}" = [123, 125] by decide]
    exact hbrace
  | object false properties, tabCount, ⟨_, h⟩, _ => by
    have hmembers := reads_properties properties 0 tabCount h
    have hopen : Reads (fun _ => True) (text "\x7b" ++ text "\n") [.leftBrace] True := by
      rw [show text "\x7b" = [123] by decide]
      exact (show Reads _ _ ([.leftBrace] ++ []) _ from
        .append (P := fun _ => True) (.mark rfl) (.spaces (by decide +kernel)) fun _ _ =>
          trivial).congr and_self_iff
    obtain ⟨hclose, hends⟩ := reads_close (P := Ends) (b := 125)
      (line_or ((writeProperties auth users properties 0 tabCount).2 > 0) tabCount)
        (by decide : text "\x7d" = [125]) rfl (by decide)
    have hall := hopen.append (hmembers.append hclose fun rest _ => hends rest) fun _ _ => trivial
    simpa [write, shown, Json.tokens, Writable] using hall

theorem reads_items : ∀ (items : List StoredJSON) {index count : ℕ} (tabCount : ℕ),
    StoredItems items →
    index + items.length = count + 1 → Reads Ends (writeItems auth users items index count tabCount)
      (separate (itemTokens (shownItems auth users items))) (WritableItems auth users items)
  | [], _, _, _, _, _ => .nil
  | item :: items, index, count, tabCount, ⟨hitem, hitems⟩, hcount => by
    have hchild :=
      reads_child (reads_write item (if count = 1 then tabCount + 1 - 1 else tabCount + 1) hitem)
    have hmore := reads_items items tabCount hitems
      (show index + 1 + items.length = count + 1 by simp at hcount; omega)
    rw [writeItems, shownItems, itemTokens]
    cases items with
    | nil =>
      have hlast : ¬ index < count := by simp at hcount; omega
      rw [if_neg hlast]
      simpa [writeItems, shownItems, itemTokens, separate, WritableItems] using hchild
    | cons next items =>
      have hnext : index < count := by simp at hcount; omega
      have hcomma := (reads_comma (P := fun _ => True)).append
        (reads_tabs (P := fun _ => True) (tabCount + 1)) fun _ _ => trivial
      have hall := hchild.append (hcomma.append hmore fun _ _ => trivial) fun _ _ => by
        rw [List.append_assoc, List.append_assoc]
        exact ends_comma _
      rw [if_pos hnext, separate_cons _ (by simp [shownItems, itemTokens])]
      simpa [WritableItems] using hall

theorem reads_properties : ∀ (properties : List (BString × StoredJSON)) (count tabCount : ℕ),
    StoredProperties properties →
    Reads Ends (writeProperties auth users properties count tabCount).1
      (separate (memberTokens (shownProperties auth users properties)))
      (WritableProperties auth users properties)
  | [], _, _, _ => .nil
  | (key, value) :: properties, count, tabCount, ⟨hkey, hvalue, h⟩ => by
    have hchild := reads_child (reads_write value (tabCount + 1) hvalue)
    cases hs : visibleKey auth users key with
    | none =>
      have hmore := reads_properties properties count tabCount h
      simp only [writeProperties, shownProperties, WritableProperties, hs]
      exact hmore
    | some name =>
      have hmore := reads_properties properties (count + 1) tabCount h
      have hname := reads_name (P := fun _ => True) (whole_visibleKey hkey hs) (tabCount + 1)
      simp only [writeProperties, shownProperties, WritableProperties, hs]
      cases properties with
      | nil =>
        have hall := hname.append hchild fun _ _ => trivial
        simpa [writeProperties, shownProperties, memberTokens, separate,
          WritableProperties] using hall
      | cons next properties =>
        have hends :
          ∀ rest, Ends
          (text ",\n" ++ (writeProperties auth users (next :: properties) (count + 1) tabCount).1 ++
          rest) :=
          fun rest => by
            rw [List.append_assoc]
            exact ends_comma _
        by_cases hv : shownProperties auth users (next :: properties) = []
        · -- the comma has no member after it
          have hcomma : Reads (fun _ => True) (text ",\n") [] False :=
            reads_comma.extra (List.cons_ne_nil _ _)
          have hall :=
            hname.append (hchild.append (hcomma.append hmore fun _ _ => trivial) fun rest _ =>
            hends rest) fun _ _ => trivial
          rw [hv] at hall ⊢
          simpa [memberTokens, separate] using hall
        · have hcomma : Reads (fun _ => True) (text ",\n") [.comma] True := reads_comma
          have hall :=
            hname.append (hchild.append (hcomma.append hmore fun _ _ => trivial) fun rest _ =>
            hends rest) fun _ _ => trivial
          have hne : memberTokens (shownProperties auth users (next :: properties)) ≠ [] := by
            obtain ⟨member, members, hm⟩ := List.exists_cons_of_ne_nil hv
            rw [hm]
            exact List.cons_ne_nil _ _
          rw [memberTokens, separate_cons _ hne]
          simpa [hv, and_assoc] using hall

end

/-- **What is written is the JSON text of the visible part exactly when that
part is writable**: its scalars are JSON, its strings and keys have no control
character without a mark, and no hidden property ends an object after a visible
one. -/
theorem lex_write {node : StoredJSON} (h : Stored node) (hu : node.type ≠ .undefined)
    (tabCount : ℕ) :
    lex (write auth users node tabCount) = some (shown auth users node).tokens ↔
      Writable auth users node :=
  (reads_write node tabCount h hu).lex_iff .nil

/-- An object with a property `a` and one of the user `b` after it. -/
def hiddenLast : StoredJSON := object false [([97], number (some [49])), ([98], null)]

theorem stored_hiddenLast : Stored hiddenLast := by
  have hwhole : ∀ b : UInt8, b < 0x80 → Whole [b] := fun b hb =>
    ⟨[[b]], fun c hc => by rw [List.mem_singleton.mp hc]; exact Utf8.isChar_ascii hb, rfl⟩
  have hbare : ∀ text ∈ some [49], Bare text := fun text ht => by
    rw [← Option.some.inj ht]
    decide +kernel
  exact ⟨nofun, hwhole 97 (by decide), hbare, hwhole 98 (by decide), trivial, trivial⟩

/-- The user `b` is logged on and sees both. -/
theorem lex_write_own : lex (write ⟨[98], []⟩ (fun key => key = [98]) hiddenLast 0) =
    some (shown ⟨[98], []⟩ (fun key => key = [98]) hiddenLast).tokens :=
  (lex_write stored_hiddenLast nofun 0).mpr (by
    have ha : visibleKey ⟨[98], []⟩ (fun key => key = [98]) [97] = some [97] := by decide
    have hb : visibleKey ⟨[98], []⟩ (fun key => key = [98]) [98] = some (text "my") := by decide
    simp only [hiddenLast, Writable, WritableProperties, shownProperties, ha, hb]
    exact ⟨⟨by decide +kernel, by decide +kernel⟩, fun _ => List.cons_ne_nil _ _,
      ⟨by decide +kernel, trivial⟩, fun h => absurd rfl h, trivial⟩)

/-- Somebody else gets a comma after the last member. -/
theorem lex_write_hidden : Stored hiddenLast ∧ hiddenLast.type ≠ .undefined ∧
    lex (write ⟨[99], []⟩ (fun key => key = [98]) hiddenLast 0) ≠
      some (shown ⟨[99], []⟩ (fun key => key = [98]) hiddenLast).tokens :=
  ⟨stored_hiddenLast, nofun, by decide +kernel⟩

end StoredJSON

end BeeFish
