/-
# Variables that are read back

What `Variable::write` writes is a text of JSON in one of the layouts, and the
parser makes the variable of it again, without its undefined members, exactly
when all of it is readable (`Variable.parses_str`). What is not: integers that
are no `long`, strings and keys longer than a page, undefined members before
others, and arrays of two or more elements without blank space.

Key definitions: `Variable.layout`.
-/
import BeeFish.JSONLayout
import Mathlib.Data.Set.Finite.Lemmas

namespace BeeFish

open BString

/-! ### Strings -/

namespace JSONString

variable {pageSize : ℕ+} {s : BString}

theorem value_eq_iff (h : Whole s) : value pageSize s = s ↔ s.length ≤ pageSize := by
  obtain ⟨cs, hcs, rfl⟩ := h
  rw [value, Parser.characters_text hcs]
  exact JSONGrammar.fieldsOf_value pageSize cs

theorem value_infix (h : Whole s) : value pageSize s <:+: s := by
  obtain ⟨cs, hcs, rfl⟩ := h
  have hholds : StringFields.Holds pageSize ([] ++ cs.flatten) [] _ :=
    StringFields.holds_characters StringFields.holds_empty
  obtain ⟨before, hsince, -⟩ := hholds.since
  rw [List.nil_append] at hsince
  rw [value, Parser.characters_text hcs, JSONGrammar.fieldsOf, StringFields.flush]
  split_ifs
  · exact ⟨before ++ _, [], by rw [List.append_nil]; exact hsince⟩
  · exact ⟨before, _, hsince⟩

end JSONString

namespace Variable

variable (blankSpace : Bool)

/-! ### The layout -/

def crlf : BString := text "\r\n"

mutual

/-- The layout of what is written. -/
def layout : Variable → ℕ → JSONLayout
  | undefined, _ => .undefined
  | null, _ => .null
  | boolean b, _ => .boolean b
  | integer n, _ => .integer (text (toString n.toNat))
  | string s, _ => .string s
  | array elements, tabIndex =>
    let many := decide (1 < elements.length)
    if many ∧ ¬ blankSpace then .row (layoutRow elements (tabIndex + 1))
    else if many then .array (layoutElements (crlf ++ tabs (tabIndex + 1)) (crlf ++ tabs tabIndex)
      elements (tabIndex + 1))
    else .array (layoutElements [] [] elements tabIndex)
  | object members, tabIndex =>
    .object (layoutMembers (if blankSpace then crlf else [])
      (if blankSpace then crlf ++ tabs tabIndex else []) members (tabIndex + 1))

def layoutElements (before last : BString) : List Variable → ℕ →
    List (BString × Option JSONLayout × BString)
  | [], _ => []
  | element :: elements, tabIndex =>
    (before, some (layout element tabIndex), if elements = [] then last else []) ::
      layoutElements before last elements tabIndex

def layoutRow : List Variable → ℕ → List JSONLayout
  | [], _ => []
  | element :: elements, tabIndex => layout element tabIndex :: layoutRow elements tabIndex

def layoutMembers (before last : BString) :
    Members → ℕ → List (BString × Option (BString × BString × BString × JSONLayout) × BString)
  | [], _ => []
  | (key, value) :: members, count =>
    (before ++ (if value.isUndefined = false ∧ blankSpace then tabs count else []),
      if value.isUndefined then none else some (key, [], if blankSpace then [32] else [],
        layout value count),
      if members = [] then last else []) :: layoutMembers before last members count

end

variable {blankSpace}

theorem text_cons (x : BString) : [34] ++ x ++ [34] = 34 :: (x ++ [34]) := rfl

/-- The elements of an array with line breaks. -/
theorem writeElements_items (last : BString) {tabIndex : ℕ} : ∀ {elements : List Variable},
    elements ≠ [] →
    (∀ e ∈ elements, write true e tabIndex = (layout true e tabIndex).text) →
    crlf ++ writeElements true true elements tabIndex ++ last =
      JSONLayout.itemsText (layoutElements true (crlf ++ tabs tabIndex) last elements tabIndex)
  | [], h, _ => absurd rfl h
  | [e], _, h => by
    simp [writeElements, layoutElements, JSONLayout.itemsText, JSONLayout.comma, h]
  | e :: e' :: elements, _, h => by
    have ih := writeElements_items last (List.cons_ne_nil e' elements) fun d hd =>
      h d (List.mem_cons_of_mem e hd)
    rw [layoutElements, JSONLayout.itemsText, ← ih, writeElements, h e List.mem_cons_self]
    have hcomma : text ",\r\n" = 44 :: crlf := by decide
    simp [JSONLayout.comma, layoutElements, hcomma]

/-- The elements of an array without blank space. -/
theorem writeElements_row (many : Bool) {tabIndex : ℕ} : ∀ {elements : List Variable},
    (∀ e ∈ elements, write false e tabIndex = (layout false e tabIndex).text) →
    writeElements false many elements tabIndex = JSONLayout.rowText
      (layoutRow false elements tabIndex)
  | [], _ => by rw [writeElements, layoutRow, JSONLayout.rowText]
  | e :: elements, h => by
    have ih := writeElements_row many fun d hd => h d (List.mem_cons_of_mem e hd)
    rw [layoutRow, JSONLayout.rowText, ← ih, writeElements, h e List.mem_cons_self]
    simp

/-- The members of an object. -/
theorem writeMembers_members (last : BString) {count : ℕ} (hcount : 0 < count) :
    ∀ {members : Members}, members ≠ [] →
    (∀ m ∈ members, write blankSpace m.2 count = (layout blankSpace m.2 count).text) →
    (if blankSpace then crlf else []) ++ writeMembers blankSpace members count ++ last =
      JSONLayout.membersText (layoutMembers blankSpace (if blankSpace then crlf else [])
        last members count)
  | [], h, _ => absurd rfl h
  | (key, value) :: members, _, h => by
    have hvalue : write blankSpace value count = (layout blankSpace value count).text :=
      h (key, value) List.mem_cons_self
    have hquote : text "\"" = [34] := by decide
    have hcolon : text "\":" = [34, 58] := by decide
    have hspace : text " " = [32] := by decide
    have hcomma : text "," = [44] := by decide
    have hcrlf : text "\r\n" = crlf := rfl
    rw [writeMembers, layoutMembers, hvalue, hquote, hcolon, hspace, hcomma, hcrlf]
    by_cases h0 : members = []
    · subst h0
      cases hundefined : value.isUndefined <;>
        simp [JSONLayout.membersText, layoutMembers, writeMembers, JSONLayout.comma, hcount]
    · have ih := writeMembers_members last hcount h0 fun m hm => h m (List.mem_cons_of_mem _ hm)
      have hlayout :
        (layoutMembers blankSpace (if blankSpace then crlf else []) last members count).isEmpty =
        false := by
        obtain ⟨m, members, rfl⟩ := List.exists_cons_of_ne_nil h0
        rw [layoutMembers]
        rfl
      cases hundefined : value.isUndefined <;>
        simp [JSONLayout.membersText, JSONLayout.comma, hcount, h0, hlayout, ← ih]

theorem write_array {elements : List Variable}
    (h : ∀ e ∈ elements, ∀ tabIndex, write blankSpace e tabIndex =
      (layout blankSpace e tabIndex).text)
    (tabIndex : ℕ) :
    write blankSpace (array elements) tabIndex =
      (layout blankSpace (array elements) tabIndex).text := by
  have hopen : text "[" = [91] := by decide
  have hclose : text "]" = [93] := by decide
  have hcrlf : text "\r\n" = crlf := rfl
  rw [write, layout, hopen, hclose, hcrlf]
  by_cases hmany : 1 < elements.length
  · have hne : elements ≠ [] := fun hnil => by simp [hnil] at hmany
    cases blankSpace with
    | true =>
      have hitems := writeElements_items (crlf ++ tabs tabIndex) hne fun e he =>
        h e he (tabIndex + 1)
      simp [hmany, JSONLayout.text, ← hitems]
    | false =>
      have hrow := writeElements_row true fun e he => h e he (tabIndex + 1)
      simp [hmany, JSONLayout.text, hrow]
  · cases elements with
    | nil => simp [writeElements, layoutElements, JSONLayout.text, JSONLayout.itemsText]
    | cons e elements =>
      obtain rfl : elements = [] := by
        cases elements with
        | nil => rfl
        | cons _ _ => simp at hmany
      have he := h e List.mem_cons_self tabIndex
      simp [writeElements, layoutElements, JSONLayout.text, JSONLayout.itemsText,
        JSONLayout.comma, he]

theorem write_object {members : Members}
    (h : ∀ m ∈ members, ∀ tabIndex, write blankSpace m.2 tabIndex =
      (layout blankSpace m.2 tabIndex).text)
    (tabIndex : ℕ) :
    write blankSpace (object members) tabIndex =
      (layout blankSpace (object members) tabIndex).text := by
  have hopen : text "\x7b" = [123] := by decide
  have hclose : text "\x7d" = [125] := by decide
  have hcrlf : text "\r\n" = crlf := rfl
  cases members with
  | nil =>
    have hempty : text "\x7b\x7d" = [123, 125] := by decide
    simp [write, writeObject, layout, layoutMembers, JSONLayout.text,
      JSONLayout.membersText, hempty]
  | cons m members =>
    have hmembers := writeMembers_members (if blankSpace then crlf ++ tabs tabIndex else [])
      (Nat.succ_pos tabIndex)
      (List.cons_ne_nil m members) fun m hm => h m hm (tabIndex + 1)
    rw [write, layout, writeObject, JSONLayout.text, ← hmembers, hopen, hclose, hcrlf]
    cases blankSpace <;> cases tabIndex <;> simp [tabs]

mutual

/-- What is written is the text of the layout. -/
theorem write_layout : ∀ (v : Variable) (tabIndex : ℕ),
    write blankSpace v tabIndex = (layout blankSpace v tabIndex).text
  | undefined, _ => by rw [write, layout, JSONLayout.text]
  | null, _ => by rw [write, layout, JSONLayout.text]
  | boolean b, _ => by rw [write, layout, JSONLayout.text]
  | integer n, _ => by rw [write, layout, JSONLayout.text]
  | string s, _ => by rw [write, layout, JSONLayout.text, text_cons]
  | array elements, tabIndex => by
    exact write_array (write_elements elements) tabIndex
  | object members, tabIndex => by
    exact write_object (write_members members) tabIndex

theorem write_elements : ∀ (elements : List Variable), ∀ e ∈ elements, ∀ tabIndex,
    write blankSpace e tabIndex = (layout blankSpace e tabIndex).text
  | [], e, he => nomatch he
  | e' :: elements, e, he => by
    rcases List.mem_cons.mp he with heq | he
    · rw [heq]
      exact write_layout e'
    · exact write_elements elements e he

theorem write_members : ∀ (members : Members), ∀ m ∈ members, ∀ tabIndex,
    write blankSpace m.2 tabIndex = (layout blankSpace m.2 tabIndex).text
  | [], m, hm => nomatch hm
  | (key, value) :: members, m, hm => by
    rcases List.mem_cons.mp hm with heq | hm
    · rw [heq]
      exact write_layout value
    · exact write_members members m hm

end

/-! ### The layout is one -/

theorem blank_tabs (count : ℕ) : JSONLayout.Blank (tabs count) := by
  intro b hb
  obtain rfl := List.eq_of_mem_replicate hb
  decide

theorem blank_crlf : JSONLayout.Blank crlf := forall_of_all (by decide)

theorem blank_append {x y : BString} (hx : JSONLayout.Blank x) (hy : JSONLayout.Blank y) :
    JSONLayout.Blank (x ++ y) :=
  fun b hb => (List.mem_append.mp hb).elim (hx b) (hy b)

theorem blank_ite {p : Prop} [Decidable p] {x : BString} (hx : JSONLayout.Blank x) :
    JSONLayout.Blank (if p then x else []) := by
  split_ifs
  · exact hx
  · exact JSONLayout.blank_nil

theorem layoutElements_valid {before last : BString} (hbefore : JSONLayout.Blank before)
    (hlast : JSONLayout.Blank last) {tabIndex : ℕ} :
    ∀ {elements : List Variable}, (∀ e ∈ elements, (layout blankSpace e tabIndex).Valid) →
      JSONLayout.ValidItems (layoutElements blankSpace before last elements tabIndex)
  | [], _ => by rw [layoutElements]; trivial
  | e :: elements, h => by
    rw [layoutElements, JSONLayout.ValidItems]
    exact ⟨hbefore, blank_ite hlast, h e List.mem_cons_self,
      layoutElements_valid hbefore hlast fun d hd => h d (List.mem_cons_of_mem e hd)⟩

theorem layoutRow_valid {tabIndex : ℕ} :
    ∀ {elements : List Variable}, (∀ e ∈ elements, (layout blankSpace e tabIndex).Valid) →
    JSONLayout.ValidRow (layoutRow blankSpace elements tabIndex)
  | [], _ => by rw [layoutRow]; trivial
  | e :: elements, h => by
    rw [layoutRow, JSONLayout.ValidRow]
    exact ⟨h e List.mem_cons_self, layoutRow_valid fun d hd => h d (List.mem_cons_of_mem e hd)⟩

theorem length_layoutRow {tabIndex : ℕ} :
    ∀ elements : List Variable, (layoutRow blankSpace elements tabIndex).length = elements.length
  | [] => by rw [layoutRow]; rfl
  | e :: elements =>
    by rw [layoutRow, List.length_cons, length_layoutRow elements, List.length_cons]

theorem layoutMembers_valid {before last : BString} (hbefore : JSONLayout.Blank before)
    (hlast : JSONLayout.Blank last) {count : ℕ} :
    ∀ {members : Members}, (∀ m ∈ members, Whole m.1 ∧ (layout blankSpace m.2 count).Valid) →
      JSONLayout.ValidMembers (layoutMembers blankSpace before last members count)
  | [], _ => by rw [layoutMembers]; trivial
  | (key, value) :: members, h => by
    obtain ⟨hkey, hvalue⟩ := h (key, value) List.mem_cons_self
    have hnext := layoutMembers_valid hbefore hlast fun m hm => h m (List.mem_cons_of_mem _ hm)
    have hspace : JSONLayout.Blank [32] := forall_of_all (by decide)
    rw [layoutMembers]
    cases value.isUndefined with
    | true => exact ⟨blank_append hbefore (blank_ite (blank_tabs count)), blank_ite hlast, hnext⟩
    | false =>
      exact ⟨blank_append hbefore (blank_ite (blank_tabs count)), blank_ite hlast, hkey,
        JSONLayout.blank_nil, blank_ite hspace, hvalue, hnext⟩

theorem layout_integer (n : UInt64) : (JSONLayout.integer (text (toString n.toNat))).Valid := by
  obtain ⟨hne, hdigits⟩ := isDigitsOnly_iff.mp (isDigitsOnly_text n.toNat)
  refine ⟨hne, fun b hb => ?_⟩
  rw [isDigit, Bool.and_eq_true, decide_eq_true_eq, decide_eq_true_eq]
  exact hdigits b hb

mutual

theorem layout_valid : ∀ v : Variable, v.Valid → ∀ tabIndex, (layout blankSpace v tabIndex).Valid
  | undefined, _, _ => by rw [layout]; trivial
  | null, _, _ => by rw [layout]; trivial
  | boolean b, _, _ => by rw [layout]; trivial
  | integer n, _, _ => by rw [layout]; exact layout_integer n
  | string s, h, _ => by rw [layout]; exact h
  | array elements, h, tabIndex => by
    have helements := layout_elements elements h
    rw [layout]
    split_ifs with hrow hmany
    · obtain ⟨hmany, -⟩ := hrow
      exact ⟨by rw [length_layoutRow]; exact of_decide_eq_true hmany, layoutRow_valid fun e he =>
        helements e he _⟩
    · exact layoutElements_valid (blank_append blank_crlf (blank_tabs _))
        (blank_append blank_crlf (blank_tabs _)) fun e he => helements e he _
    · exact layoutElements_valid JSONLayout.blank_nil JSONLayout.blank_nil fun e he =>
        helements e he _
  | object members, h, tabIndex => by
    have hmembers := layout_members members h.2
    rw [layout]
    exact layoutMembers_valid (blank_ite blank_crlf)
      (blank_ite (blank_append blank_crlf (blank_tabs tabIndex))) fun m hm => hmembers m hm _

theorem layout_elements : ∀ elements : List Variable, ValidElements elements → ∀ e ∈ elements,
    ∀ tabIndex, (layout blankSpace e tabIndex).Valid
  | [], _, e, he => nomatch he
  | e' :: elements, h, e, he => by
    rcases List.mem_cons.mp he with heq | he
    · rw [heq]
      exact layout_valid e' h.1
    · exact layout_elements elements h.2 e he

theorem layout_members : ∀ members : Members, ValidMembers members → ∀ m ∈ members, ∀ tabIndex,
    Whole m.1 ∧ (layout blankSpace m.2 tabIndex).Valid
  | [], _, m, hm => nomatch hm
  | (key, value) :: members, h, m, hm => by
    rcases List.mem_cons.mp hm with heq | hm
    · rw [heq]
      exact fun tabIndex => ⟨h.1, layout_valid value h.2.1 tabIndex⟩
    · exact layout_members members h.2.2 m hm

end

end Variable

/-! ### Members -/

namespace Members

variable {key k : BString} {v : Variable}

theorem set_last : ∀ {members : Members}, (∀ m ∈ members, m.1 < key) →
    set key v members = members ++ [(key, v)]
  | [], _ => rfl
  | (k, w) :: members, h => by
    have hk : k < key := h (k, w) List.mem_cons_self
    have hne : k ≠ key := fun heq => List.lt_irrefl k (heq ▸ hk)
    have hlt : ¬ key < k := fun hlt => List.lt_irrefl k (List.lt_trans hk hlt)
    rw [set, if_neg hne, if_neg hlt, set_last fun m hm => h m (List.mem_cons_of_mem _ hm)]
    rfl

theorem mem_set : ∀ {members : Members}, k ∈ (set key v members).map Prod.fst → k = key ∨
    k ∈ members.map Prod.fst
  | [], h => Or.inl (List.mem_singleton.mp h)
  | (k', w) :: members, h => by
    rw [set] at h
    split_ifs at h with heq hlt
    · exact Or.inr h
    · exact List.mem_cons.mp h
    · rcases List.mem_cons.mp h with heq' | h
      · exact Or.inr (List.mem_cons.mpr (Or.inl heq'))
      · exact (mem_set h).imp_right fun h => List.mem_cons_of_mem _ h

end Members

namespace Variable

/-! ### What is read -/

variable {blankSpace : Bool} {pageSize : ℕ+}

open JSONLayout (reading itemsReading membersReading)

theorem itemsReading_append (items : List (BString × Option JSONLayout × BString))
    (read : List Variable) :
    itemsReading pageSize items read = (itemsReading pageSize items []).map (read ++ ·) := by
  induction items generalizing read with
  | nil => simp [itemsReading]
  | cons item items ih =>
    obtain ⟨before, content, after⟩ := item
    cases content with
    | none =>
      rw [itemsReading, itemsReading]
      split_ifs <;> simp
    | some l =>
      rw [itemsReading, itemsReading]
      cases reading pageSize l with
      | none => rfl
      | some v =>
        rw [Option.bind_some, Option.bind_some, ih, ih ([] ++ [v]), Option.map_map]
        congr 1
        funext l
        simp

theorem itemsReading_elements (before last : BString) {tabIndex : ℕ} : ∀ {elements : List Variable},
    (∀ e ∈ elements, reading pageSize (layout blankSpace e tabIndex) = some e.defined ↔
      e.Readable pageSize blankSpace) →
      (itemsReading pageSize (layoutElements blankSpace before last elements tabIndex) [] =
        some (definedElements elements) ↔
        ReadableElements pageSize blankSpace elements)
  | [], _ => by simp [layoutElements, itemsReading, definedElements, ReadableElements]
  | e :: elements, h => by
    have ih := itemsReading_elements before last fun d hd => h d (List.mem_cons_of_mem e hd)
    rw [layoutElements, itemsReading, definedElements, ReadableElements,
      ← h e List.mem_cons_self, ← ih]
    cases reading pageSize (layout blankSpace e tabIndex) with
    | none => simp
    | some v =>
      rw [Option.bind_some, itemsReading_append, Option.map_eq_some_iff]
      simp [and_comm]

theorem length_definedElements : ∀ elements : List Variable,
    (definedElements elements).length = elements.length
  | [] => by rw [definedElements]
  | e :: elements =>
    by rw [definedElements, List.length_cons, length_definedElements elements, List.length_cons]

theorem reading_array {elements : List Variable}
    (h : ∀ e ∈ elements, ∀ tabIndex, reading pageSize (layout blankSpace e tabIndex) =
      some e.defined ↔ e.Readable pageSize blankSpace)
    (tabIndex : ℕ) :
    reading pageSize (layout blankSpace (array elements) tabIndex) = some (array elements).defined ↔
      (array elements).Readable pageSize blankSpace := by
  have hitems : ∀ before last tabIndex,
    (itemsReading pageSize (layoutElements blankSpace before last elements tabIndex) []).map array =
      some (array (definedElements elements)) ↔ ReadableElements pageSize blankSpace elements :=
        fun before last tabIndex => by
    rw [← itemsReading_elements before last fun e he => h e he tabIndex, Option.map_eq_some_iff]
    simp
  rw [layout, defined, Readable]
  split_ifs with hrow hmany
  · obtain ⟨hmany, hspace⟩ := hrow
    have hlen : 1 < elements.length := of_decide_eq_true hmany
    refine iff_of_false (fun heq => ?_) fun hread => hread.1.elim hspace (Nat.not_le_of_lt hlen)
    rw [reading] at heq
    split_ifs at heq
    have hone := congrArg List.length (Variable.array.inj (Option.some.inj heq))
    rw [length_definedElements, List.length_singleton] at hone
    omega
  · rw [reading, hitems]
    exact (and_iff_right (Or.inl (by simpa [hmany] using hrow))).symm
  · rw [reading, hitems]
    exact (and_iff_right (Or.inr (Nat.le_of_not_lt (by simpa using hmany)))).symm

section

variable {before last : BString} {count : ℕ}

theorem layoutMembers_isEmpty :
    ∀ members : Members,
      (layoutMembers blankSpace before last members count).isEmpty = members.isEmpty
  | [] => by rw [layoutMembers]; rfl
  | (key, value) :: members => by rw [layoutMembers]; rfl

/-- A member that is read, and then the others. -/
theorem membersReading_cons (key : BString) (value : Variable) (members read : Members) :
    membersReading pageSize (layoutMembers blankSpace before last ((key, value) :: members) count)
      read =
      if value.isUndefined then (if members.isEmpty then some read else none)
      else (reading pageSize (layout blankSpace value count)).bind fun v =>
        membersReading pageSize (layoutMembers blankSpace before last members count)
          (Members.set (JSONString.value pageSize key) v read) := by
  rw [layoutMembers]
  cases value.isUndefined with
  | true =>
    simp only [if_true]
    rw [membersReading, layoutMembers_isEmpty]
  | false =>
    simp only [Bool.false_eq_true, if_false]
    rw [membersReading]

theorem lastUndefined_cons (m : BString × Variable) (members : Members) :
    LastUndefined (m :: members) ↔ (m.2.isUndefined = true → members = []) ∧
      LastUndefined members := by
  cases members with
  | nil => simp [LastUndefined]
  | cons m' members => simp [LastUndefined]

theorem lastUndefined_of_read : ∀ {members read result : Members},
    membersReading pageSize (layoutMembers blankSpace before last members count) read =
      some result → LastUndefined members
  | [], _, _, _ => List.forall_mem_nil _
  | (key, value) :: members, read, result, h => by
    rw [membersReading_cons] at h
    rw [lastUndefined_cons]
    split_ifs at h with hundefined hempty
    · rw [List.isEmpty_iff.mp hempty]
      exact ⟨fun _ => rfl, List.forall_mem_nil _⟩
    · obtain ⟨v, -, hnext⟩ := Option.bind_eq_some_iff.mp h
      exact ⟨fun htrue => absurd htrue hundefined, lastUndefined_of_read hnext⟩

/-- A key that is read is that of a member. -/
theorem mem_read : ∀ {members read result : Members},
    membersReading pageSize (layoutMembers blankSpace before last members count) read =
      some result → ∀ k ∈ result.map Prod.fst,
      k ∈ read.map Prod.fst ∨ ∃ m ∈ members, m.2.isUndefined = false ∧
        k = JSONString.value pageSize m.1
  | [], read, result, h, k, hk => by
    rw [layoutMembers, membersReading] at h
    obtain rfl := Option.some.inj h
    exact Or.inl hk
  | (key, value) :: members, read, result, h, k, hk => by
    rw [membersReading_cons] at h
    split_ifs at h with hundefined hempty
    · obtain rfl := Option.some.inj h
      exact Or.inl hk
    · obtain ⟨v, -, hnext⟩ := Option.bind_eq_some_iff.mp h
      rcases mem_read hnext k hk with hread | ⟨m, hm, hm'⟩
      · rcases Members.mem_set hread with heq | hread
        · exact Or.inr ⟨(key, value), List.mem_cons_self, by simpa using hundefined, heq⟩
        · exact Or.inl hread
      · exact Or.inr ⟨m, List.mem_cons_of_mem _ hm, hm'⟩

theorem mem_definedMembers : ∀ {members : Members} {m : BString × Variable}, m ∈ members →
    m.2.isUndefined = false →
    m.1 ∈ (definedMembers members).map Prod.fst
  | (key, value) :: members, m, hm, hdefined => by
    rw [definedMembers]
    rcases List.mem_cons.mp hm with rfl | hm
    · rw [if_neg (by simp [hdefined])]
      exact List.mem_cons_self
    · split_ifs
      · exact mem_definedMembers hm hdefined
      · exact List.mem_cons_of_mem _ (mem_definedMembers hm hdefined)

/-- The longest key of all would be read as a shorter one. -/
theorem length_keys {members : Members} (hkeys : ∀ m ∈ members, Whole m.1)
    (h : membersReading pageSize (layoutMembers blankSpace before last members count) [] =
      some (definedMembers members)) :
    ∀ m ∈ members, m.2.isUndefined = false → m.1.length ≤ pageSize := by
  intro m hm hdefined
  have hfinite : {m | m ∈ members ∧ m.2.isUndefined = false}.Finite :=
    members.finite_toSet.subset fun m hm => hm.1
  obtain ⟨k, ⟨hk, hkdefined⟩, hlongest⟩ :=
    Set.exists_max_image _ (fun m => m.1.length) hfinite ⟨m, hm, hdefined⟩
  obtain hnil | ⟨k', hk', hk'defined, heq⟩ := mem_read h k.1 (mem_definedMembers hk hkdefined)
  · exact absurd hnil List.not_mem_nil
  have hinfix : JSONString.value pageSize k'.1 <:+: k'.1 := JSONString.value_infix (hkeys k' hk')
  have hle : k'.1.length ≤ k.1.length := hlongest k' ⟨hk', hk'defined⟩
  rw [heq] at hle
  have hvalue := hinfix.eq_of_length_le hle
  calc m.1.length ≤ k.1.length := hlongest m ⟨hm, hdefined⟩
    _ = k'.1.length := by rw [heq, hvalue]
    _ ≤ pageSize := (JSONString.value_eq_iff (hkeys k' hk')).mp hvalue

/-- Keys in their order are put to the end. -/
theorem membersReading_append : ∀ {members : Members} (read : Members),
    (members.map Prod.fst).Pairwise (· < ·) →
    (∀ m ∈ members, m.2.isUndefined = false → JSONString.value pageSize m.1 = m.1) →
      (∀ m ∈ read, ∀ m' ∈ members, m.1 < m'.1) →
      membersReading pageSize (layoutMembers blankSpace before last members count) read =
        (membersReading pageSize (layoutMembers blankSpace before last members count) []).map
        (read ++ ·)
  | [], read, _, _, _ => by rw [layoutMembers, membersReading, membersReading]; simp
  | (key, value) :: members, read, hsorted, hkeys, hread => by
    obtain ⟨hfirst, hsorted⟩ := List.pairwise_cons.mp hsorted
    rw [membersReading_cons, membersReading_cons]
    split_ifs with hundefined hempty
    · simp
    · rfl
    have hkey := hkeys (key, value) List.mem_cons_self (by simpa using hundefined)
    have hlater : ∀ m ∈ members, key < m.1 := fun m hm => hfirst m.1 (List.mem_map_of_mem hm)
    have hnext : ∀ read : Members, (∀ m ∈ read, m.1 < key) → ∀ v, ∀ m ∈ read ++ [(key, v)],
      ∀ m' ∈ members, m.1 < m'.1 := by
      intro read hread v m hm m' hm'
      rcases List.mem_append.mp hm with hm | hm
      · exact List.lt_trans (hread m hm) (hlater m' hm')
      · obtain rfl := List.mem_singleton.mp hm
        exact hlater m' hm'
    have hbefore : ∀ m ∈ read, m.1 < key := fun m hm => hread m hm (key, value) List.mem_cons_self
    cases reading pageSize (layout blankSpace value count) with
    | none => rfl
    | some v =>
      have hrest := fun m hm => hkeys m (List.mem_cons_of_mem (key, value) hm)
      rw [Option.bind_some, Option.bind_some, hkey, Members.set_last hbefore,
        Members.set_last (List.forall_mem_nil _),
        membersReading_append _ hsorted hrest (hnext read hbefore v),
        membersReading_append _ hsorted hrest (hnext [] (List.forall_mem_nil _) v), Option.map_map]
      congr 1
      funext l
      simp

theorem membersReading_members : ∀ {members : Members}, (members.map Prod.fst).Pairwise (· < ·) →
    LastUndefined members →
    (∀ m ∈ members, Whole m.1) → (∀ m ∈ members, m.2.isUndefined = false → m.1.length ≤ pageSize) →
    (∀ m ∈ members, reading pageSize (layout blankSpace m.2 count) = some m.2.defined ↔
      m.2.Readable pageSize blankSpace) →
      (membersReading pageSize (layoutMembers blankSpace before last members count) [] =
        some (definedMembers members) ↔
        ReadableMembers pageSize blankSpace members)
  | [], _, _, _, _, _ => by simp [layoutMembers, membersReading, definedMembers, ReadableMembers]
  | (key, value) :: members, hsorted, hlast, hwhole, hlength, h => by
    obtain ⟨hfirst, hsorted'⟩ := List.pairwise_cons.mp hsorted
    obtain ⟨hempty, hlast'⟩ := (lastUndefined_cons _ _).mp hlast
    have hkeys : ∀ m ∈ members, m.2.isUndefined = false → JSONString.value pageSize m.1 = m.1 :=
      fun m hm hdefined =>
      (JSONString.value_eq_iff (hwhole m (List.mem_cons_of_mem _ hm))).mpr
        (hlength m (List.mem_cons_of_mem _ hm) hdefined)
    have ih :=
      membersReading_members hsorted' hlast' (fun m hm => hwhole m (List.mem_cons_of_mem _ hm))
      (fun m hm => hlength m (List.mem_cons_of_mem _ hm)) fun m hm =>
        h m (List.mem_cons_of_mem _ hm)
    rw [membersReading_cons, definedMembers, ReadableMembers]
    cases hundefined : value.isUndefined with
    | true =>
      obtain rfl := hempty hundefined
      simp [definedMembers, ReadableMembers]
    | false =>
      have hvalue : reading pageSize (layout blankSpace value count) = some value.defined ↔
        value.Readable pageSize blankSpace :=
        h (key, value) List.mem_cons_self
      have hle : key.length ≤ pageSize := hlength (key, value) List.mem_cons_self hundefined
      have hkey : JSONString.value pageSize key = key :=
        (JSONString.value_eq_iff (hwhole (key, value) List.mem_cons_self)).mpr hle
      rw [if_neg Bool.false_ne_true, if_neg Bool.false_ne_true, ← ih, ← hvalue]
      cases hreading : reading pageSize (layout blankSpace value count) with
      | none => simp
      | some v =>
        have hlater : ∀ m ∈ [(key, v)], ∀ m' ∈ members, m.1 < m'.1 := by
          intro m hm m' hm'
          obtain rfl := List.mem_singleton.mp hm
          exact hfirst m'.1 (List.mem_map_of_mem hm')
        rw [Option.bind_some, hkey, Members.set, membersReading_append _ hsorted' hkeys hlater,
          Option.map_eq_some_iff]
        simp [hle, and_comm]

end

theorem whole_keys : ∀ members : Members, ValidMembers members → ∀ m ∈ members, Whole m.1
  | [], _, m, hm => nomatch hm
  | (key, value) :: members, h, m, hm => by
    rcases List.mem_cons.mp hm with heq | hm
    · rw [heq]
      exact h.1
    · exact whole_keys members h.2.2 m hm

theorem length_readable : ∀ {members : Members}, ReadableMembers pageSize blankSpace members →
    ∀ m ∈ members, m.2.isUndefined = false → m.1.length ≤ pageSize
  | [], _, m, hm => nomatch hm
  | (key, value) :: members, h, m, hm => by
    rcases List.mem_cons.mp hm with heq | hm
    · rw [heq]
      exact fun hdefined => (h.1 hdefined).1
    · exact length_readable h.2 m hm

theorem reading_object {members : Members} (hsorted : (members.map Prod.fst).Pairwise (· < ·))
    (hwhole : ∀ m ∈ members, Whole m.1)
    (h : ∀ m ∈ members, ∀ tabIndex, reading pageSize (layout blankSpace m.2 tabIndex) =
      some m.2.defined ↔ m.2.Readable pageSize blankSpace)
    (tabIndex : ℕ) :
    reading pageSize (layout blankSpace (object members) tabIndex) = some (object members).defined ↔
      (object members).Readable pageSize blankSpace := by
  rw [layout, reading, defined, Readable, Option.map_eq_some_iff]
  simp only [object.injEq, exists_eq_right]
  constructor
  · intro hread
    have hlast := lastUndefined_of_read hread
    exact ⟨hlast, (membersReading_members hsorted hlast hwhole (length_keys hwhole hread)
      fun m hm => h m hm _).mp hread⟩
  · rintro ⟨hlast, hread⟩
    exact (membersReading_members hsorted hlast hwhole (length_readable hread) fun m hm =>
      h m hm _).mpr hread

theorem reading_integer (n : UInt64) :
    some (integer (ScriptParser.atol (text (toString n.toNat)))) = some (integer n) ↔
      n.toNat < 2 ^ 63 := by
  rw [ScriptParser.atol, atol_text, Option.some.injEq, integer.injEq]
  constructor
  · intro heq
    have htoNat := congrArg UInt64.toNat heq
    rw [UInt64.toNat_ofNat_of_lt' (by simp only [UInt64.size]; omega)] at htoNat
    omega
  · intro hlt
    rw [Nat.min_eq_left (by omega), UInt64.ofNat_toNat]

mutual

/-- A layout is read as the variable exactly when that is readable. -/
theorem reading_layout : ∀ v : Variable, v.Valid → ∀ tabIndex,
    reading pageSize (layout blankSpace v tabIndex) = some v.defined ↔
      v.Readable pageSize blankSpace
  | undefined, _, _ => by simp [layout, reading, defined, Readable]
  | null, _, _ => by simp [layout, reading, defined, Readable]
  | boolean b, _, _ => by simp [layout, reading, defined, Readable]
  | integer n, _, _ => by
    simp only [layout, reading, defined, Readable]
    exact reading_integer n
  | string s, h, _ => by
    simp only [layout, reading, defined, Readable, Option.some.injEq, string.injEq]
    exact JSONString.value_eq_iff h
  | array elements, h, tabIndex => reading_array (reading_elements elements h) tabIndex
  | object members, h, tabIndex =>
    reading_object h.1 (whole_keys members h.2) (reading_members members h.2) tabIndex

theorem reading_elements : ∀ elements : List Variable, ValidElements elements → ∀ e ∈ elements,
    ∀ tabIndex,
    reading pageSize (layout blankSpace e tabIndex) = some e.defined ↔
      e.Readable pageSize blankSpace
  | [], _, e, he => nomatch he
  | e' :: elements, h, e, he => by
    rcases List.mem_cons.mp he with heq | he
    · rw [heq]
      exact reading_layout e' h.1
    · exact reading_elements elements h.2 e he

theorem reading_members : ∀ members : Members, ValidMembers members → ∀ m ∈ members, ∀ tabIndex,
    reading pageSize (layout blankSpace m.2 tabIndex) = some m.2.defined ↔
      m.2.Readable pageSize blankSpace
  | [], _, m, hm => nomatch hm
  | (key, value) :: members, h, m, hm => by
    rcases List.mem_cons.mp hm with heq | hm
    · rw [heq]
      exact reading_layout value h.2.1
    · exact reading_members members h.2.2 m hm

end

/-- **Variables.** What is written is parsed as the variable without its
undefined members exactly when the variable is readable. -/
theorem parses_str {v : Variable} (h : v.Valid) :
    ScriptParser.Parses pageSize (v.str blankSpace) v.defined ↔ v.Readable pageSize blankSpace := by
  rw [str, write_layout, ScriptParser.parses_iff pageSize (layout_valid v h 0)]
  exact reading_layout v h 0

theorem parses_str_members :
    ScriptParser.Parses 4096 ((object [([97], array [integer 1, string [98]])]).str true)
    (object [([97], array [integer 1, string [98]])]) := by
  have hwhole : ∀ b : UInt8, b < 0x80 → Whole [b] :=
    fun b hb => ⟨[[b]], isText_ascii (by simpa using hb), rfl⟩
  have hvalid : (object [([97], array [integer 1, string [98]])]).Valid :=
    ⟨List.pairwise_singleton _ _, hwhole 97 (by decide), ⟨trivial, hwhole 98 (by decide), trivial⟩,
      trivial⟩
  have hreadable : (object [([97], array [integer 1, string [98]])]).Readable 4096 true :=
    ⟨List.forall_mem_nil _, fun _ =>
      ⟨by decide, Or.inl rfl, show (1 : UInt64).toNat < 2 ^ 63 by decide, show 1 ≤ 4096 by decide,
      trivial⟩, trivial⟩
  exact (parses_str hvalid).mpr hreadable

end Variable

end BeeFish
