/-
# The parts of a JSON text

What the small matchers of json/ come to with a text: blank space, the marks
with blank space around them, words and integers; and with a character that
they do not start with. A text is given as bytes, with what is left of it.

Key definitions: `Fresh`, `Refuses`.
-/
import BeeFish.JSONString

namespace BeeFish

open Utf8 BString

namespace JSONGrammar

open Match (Reads Comes Finishes Sequence Class)

open BeeFish.Parser (characters)

variable (pageSize : ℕ+) {x y t : BString} {b c : UInt8}

/-! ### Characters of one byte -/

theorem characters_byte (h : b < 0x80) (t : BString) : characters (b :: t) = [b] :: characters t :=
  Parser.characters_cons (isChar_ascii h)

theorem characters_bytes : ∀ {x : BString}, (∀ b ∈ x, b < 0x80) → ∀ t, characters (x ++ t) = x.map
    (fun b => [b]) ++ characters t
  | [], _, _ => rfl
  | b :: x, h, t => by
    rw [List.cons_append, characters_byte (h b List.mem_cons_self), characters_bytes fun d hd =>
      h d (List.mem_cons_of_mem b hd)]
    rfl

theorem flatten_bytes : ∀ x : BString, (x.map fun b => [b]).flatten = x
  | [] => rfl
  | b :: x => congrArg (b :: ·) (flatten_bytes x)

def isBlank (b : UInt8) : Bool := decide ([b] ∈ blanks)

theorem isBlank_ascii (h : isBlank b = true) : b < 0x80 := by
  simp only [isBlank, blanks, decide_eq_true_iff, List.mem_cons, List.cons.injEq, and_true,
    List.not_mem_nil, or_false] at h
  rcases h with rfl | rfl | rfl | rfl | rfl | rfl <;> decide

/-- A text that goes on with a byte of ASCII that is not blank, or ends. -/
def Fresh (t : BString) : Prop := ∀ b ∈ t.head?, b < 0x80 ∧ isBlank b = false

/-- A text that goes on with no part of a number. -/
def AfterNumber (t : BString) : Prop := ∀ b ∈ t.head?, b < 0x80 ∧ isDigit b = false ∧ b ∉ text ".eE"

theorem fresh_cons (h : b < 0x80) (hb : isBlank b = false) (t : BString) : Fresh (b :: t) := by
  intro d hd
  obtain rfl := Option.some.inj hd
  exact ⟨h, hb⟩

theorem head_characters (h : ∀ b ∈ t.head?, b < 0x80) :
    (characters t).head? = t.head?.map fun b => [b] := by
  cases t with
  | nil => rw [characters]; rfl
  | cons b t =>
    rw [characters_byte (h b rfl)]
    rfl

/-! ### Blank space -/

theorem characters_blanks (hx : ∀ b ∈ x, isBlank b = true) (ht : Fresh t) :
    (characters (x ++ t)).dropWhile (fun c => decide (c ∈ blanks)) = characters t := by
  induction x with
  | nil =>
    rw [List.nil_append]
    cases t with
    | nil => rw [characters]; rfl
    | cons b t =>
      obtain ⟨hb, hblank⟩ := ht b rfl
      rw [characters_byte hb, List.dropWhile_cons_of_neg]
      simpa [isBlank] using hblank
  | cons b x ih =>
    have hb := hx b List.mem_cons_self
    rw [List.cons_append, characters_byte (isBlank_ascii hb), List.dropWhile_cons_of_pos
      (by simpa [isBlank] using hb)]
    exact ih fun d hd => hx d (List.mem_cons_of_mem b hd)

theorem blankSpace_any (hx : ∀ b ∈ x, isBlank b = true) (ht : Fresh t) :
    ∃ m, Comes (program pageSize) (blankSpace 0) (characters (x ++ t)) false true m
      (characters t) [] := by
  rw [← characters_blanks hx ht]
  exact Comes.repeated_any (Match.class_or blanks) _

theorem optional_blankSpace (hx : ∀ b ∈ x, isBlank b = true) (ht : Fresh t) :
    ∃ m, Comes (program pageSize) (.optional (blankSpace 1) none) (characters (x ++ t)) false true m
      (characters t) [] := by
  rw [← characters_blanks hx ht]
  obtain ⟨m, h⟩ := Comes.repeated (P := program pageSize) (Match.class_or blanks)
    (characters (x ++ t))
  exact ⟨_, h.optional⟩

/-! ### Marks -/

theorem comes_byte (h : b < 0x80) (t : BString) :
    Comes (program pageSize) (.character (some [b]) none) (characters (b :: t)) false true
      (.character (some [b]) (some true)) (characters t) [] := by
  rw [characters_byte h]
  exact Comes.character [b] (characters t)

theorem comes_byte_ne (ht : ∀ b ∈ t.head?, b < 0x80) (h : t.head? ≠ some b) :
    Comes (program pageSize) (.character (some [b]) none) (characters t) false false
      (.character (some [b]) (some false)) (characters t) [] := by
  refine Comes.character_ne ?_
  rw [head_characters ht]
  cases t with
  | nil => simp
  | cons d t => simpa using h

theorem mark_comes (hc : c < 0x80) (hblank : isBlank c = false) (hx : ∀ b ∈ x, isBlank b = true)
    (hy : ∀ b ∈ y, isBlank b = true)
    (ht : Fresh t) :
    ∃ m, Comes (program pageSize) (mark c) (characters (x ++ c :: (y ++ t))) false true m
      (characters t) [] := by
  obtain ⟨_, hbefore⟩ := blankSpace_any pageSize hx (fresh_cons hc hblank (y ++ t))
  obtain ⟨_, hafter⟩ := blankSpace_any pageSize hy ht
  obtain ⟨_, hseq⟩ :=
    (Sequence.cons (List.cons_ne_nil _ _) hbefore
    (.cons (List.cons_ne_nil _ _) (comes_byte pageSize hc _) (.last hafter))).comes
  exact ⟨_, hseq⟩

theorem mark_fails (hx : ∀ b ∈ x, isBlank b = true) (ht : Fresh t) (h : t.head? ≠ some c) :
    ∃ m, Comes (program pageSize) (mark c) (characters (x ++ t)) false false m
      (characters t) [] := by
  obtain ⟨_, hbefore⟩ := blankSpace_any pageSize hx ht
  obtain ⟨_, hseq⟩ :=
    (Sequence.cons (List.cons_ne_nil _ _) hbefore
    (.failed [blankSpace 0] (comes_byte_ne pageSize (fun b hb => (ht b hb).1) h))).comes
  exact ⟨_, hseq⟩

/-- A mark after blank space. -/
theorem close_comes (hc : c < 0x80) (hblank : isBlank c = false) (hx : ∀ b ∈ x, isBlank b = true)
    (t : BString) :
    ∃ m, Comes (program pageSize) (.and [blankSpace 0, .character (some [c]) none] 0 none)
      (characters (x ++ c :: t)) false true m (characters t) [] := by
  obtain ⟨_, hbefore⟩ := blankSpace_any pageSize hx (fresh_cons hc hblank t)
  obtain ⟨_, hseq⟩ :=
    (Sequence.cons (List.cons_ne_nil _ _) hbefore (.last (comes_byte pageSize hc t))).comes
  exact ⟨_, hseq⟩

theorem close_fails (ht : Fresh t) (h : t.head? ≠ some c) :
    ∃ m, Comes (program pageSize) (.and [blankSpace 0, .character (some [c]) none] 0 none)
      (characters t) false false m (characters t) [] := by
  have hbefore : ∃ m, Comes (program pageSize) (blankSpace 0) (characters ([] ++ t)) false true m
    (characters t) [] :=
    blankSpace_any pageSize (List.forall_mem_nil _) ht
  obtain ⟨_, hbefore⟩ := hbefore
  obtain ⟨_, hseq⟩ :=
    (Sequence.cons (List.cons_ne_nil _ _) hbefore
    (.failed [] (comes_byte_ne pageSize (fun b hb => (ht b hb).1) h))).comes
  exact ⟨_, hseq⟩

theorem seperator_comes (hx : ∀ b ∈ x, isBlank b = true) (hy : ∀ b ∈ y, isBlank b = true)
    (ht : Fresh t) :
    ∃ m, Comes (program pageSize) (setSeperator (mark 44)) (characters (x ++ 44 :: (y ++ t)))
      false true m (characters t) [] := by
  have hcomma : Fresh (44 :: (y ++ t)) := fresh_cons (by decide) (by decide) _
  obtain ⟨_, hbefore⟩ := optional_blankSpace pageSize hx hcomma
  obtain ⟨_, hmark⟩ := mark_comes pageSize (c := 44) (by decide) (by decide)
    (List.forall_mem_nil _) hy ht
  obtain ⟨_, hafter⟩ := optional_blankSpace pageSize (List.forall_mem_nil _) ht
  obtain ⟨_, hseq⟩ :=
    (Sequence.cons (List.cons_ne_nil _ _) hbefore
    (.cons (List.cons_ne_nil _ _) hmark (.last hafter))).comes
  exact ⟨_, hseq⟩

/-- Blank space without a comma after it is passed over. -/
theorem seperator_fails (hx : ∀ b ∈ x, isBlank b = true) (ht : Fresh t) (h : t.head? ≠ some 44) :
    ∃ m, Comes (program pageSize) (setSeperator (mark 44)) (characters (x ++ t)) false false m
      (characters t) [] := by
  obtain ⟨_, hbefore⟩ := optional_blankSpace pageSize hx ht
  obtain ⟨_, hmark⟩ := mark_fails pageSize (List.forall_mem_nil _) ht h
  obtain ⟨_, hseq⟩ := (Sequence.cons (List.cons_ne_nil _ _) hbefore (.failed [_] hmark)).comes
  exact ⟨_, hseq⟩

/-- A capture has the bytes that are taken. -/
theorem captured {m m' : JSONMatch} {s r : Bool} {calls : List (JSONCall × JSONMatch)}
    (hx : ∀ b ∈ x, b < 0x80) (hm : m.result = none)
    (h : Comes (program pageSize) m (characters (x ++ t)) s r m' (characters t) calls) :
    Comes (program pageSize) (.capture (fun _ => true) [] m none) (characters (x ++ t)) s r
      (.capture (fun _ => true) x m' (some r)) (characters t)
      calls := by
  have hcapture := h.capture hm (v := [])
  rw [characters_bytes hx, Match.textBefore_append, flatten_bytes] at hcapture
  rw [characters_bytes hx]
  exact hcapture

/-! ### Words -/

theorem word_comes : ∀ {letters : BString}, letters ≠ [] → (∀ b ∈ letters, b < 0x80) → ∀ t,
    Comes (program pageSize) (.word id letters none) (characters (letters ++ t)) false true
      (.word id [] (some true)) (characters t) []
  | [], h0, _, _ => absurd rfl h0
  | b :: letters, _, h, t => by
    have hturn : Match.Turn (program pageSize) (.word id (b :: letters) none) [b]
      (.word id letters (if letters = [] then some true else none)) true [] :=
      .of_succ 0 fun fuel _ => Match.matches_letter fuel rfl
    rw [List.cons_append, characters_byte (h b List.mem_cons_self)]
    by_cases h0 : letters = []
    · subst h0
      exact .done (.done hturn rfl)
    · rw [if_neg h0] at hturn
      exact (word_comes h0 (fun d hd => h d (List.mem_cons_of_mem b hd)) t).taken hturn rfl

/-! ### Numbers -/

/-- A text without a first character of a class. -/
theorem class_fails {m : JSONMatch} {p : BString → Bool} (h : Class (program pageSize) m p false)
    {w : List BString}
    (hw : ∀ c ∈ w.head?, p c = false) : ∃ m', Comes (program pageSize) m w false false m' w [] := by
  cases w with
  | nil =>
    obtain ⟨m', hend, hr⟩ := h.finishes
    exact ⟨m', .ended (.ended h.result) hend hr⟩
  | cons c w =>
    obtain ⟨m', hturn, hr⟩ := h.refuses c (hw c rfl)
    exact ⟨m', .failed (.failed hturn hr)⟩

theorem range_digit (b : UInt8) : (decide ([48] ≤ [b]) && decide ([b] ≤ [57])) = isDigit b := by
  have hall : ∀ n : Fin 256, (decide ([48] ≤ [UInt8.ofNat n]) && decide ([UInt8.ofNat n] ≤ [57])) =
    isDigit (UInt8.ofNat n) := by decide +kernel
  have hb := hall ⟨b.toNat, b.toNat_lt⟩
  rwa [UInt8.ofNat_toNat] at hb

theorem isDigit_ascii (h : isDigit b = true) : b < 0x80 := by
  rw [isDigit, Bool.and_eq_true, decide_eq_true_eq, decide_eq_true_eq] at h
  have hb : b ≤ 57 := h.2
  exact UInt8.lt_of_le_of_lt hb (by decide)

theorem characters_digits (hx : ∀ b ∈ x, isDigit b = true) (ht : AfterNumber t) :
    (characters (x ++ t)).takeWhile (fun c => decide ([48] ≤ c) && decide (c ≤ [57])) = x.map
    (fun b => [b]) ∧
      (characters (x ++ t)).dropWhile (fun c => decide ([48] ≤ c) && decide (c ≤ [57])) =
        characters t := by
  have hstop : ∀ c ∈ (characters t).head?, (decide ([48] ≤ c) && decide (c ≤ [57])) = false := by
    intro c hc
    rw [head_characters fun b hb => (ht b hb).1] at hc
    obtain ⟨b, hb, rfl⟩ := Option.map_eq_some_iff.mp hc
    rw [range_digit]
    exact (ht b hb).2.1
  have hdigits : ∀ c ∈ x.map (fun b => [b]), (decide ([48] ≤ c) && decide (c ≤ [57])) = true := by
    intro c hc
    obtain ⟨b, hb, rfl⟩ := List.mem_map.mp hc
    rw [range_digit]
    exact hx b hb
  rw [characters_bytes (fun b hb => isDigit_ascii (hx b hb)), List.takeWhile_append_of_pos hdigits,
    List.dropWhile_append_of_pos hdigits]
  cases hw : characters t with
  | nil => simp
  | cons c w =>
    rw [hw] at hstop
    have hc := hstop c rfl
    simp only [List.takeWhile_cons, List.dropWhile_cons, hc, Bool.false_eq_true, if_false,
      List.append_nil, true_and]

theorem integer_comes (h0 : x ≠ []) (hx : ∀ b ∈ x, isDigit b = true) (ht : AfterNumber t) :
    ∃ m, Comes (program pageSize) integer (characters (x ++ t)) false true m (characters t) [] := by
  obtain ⟨htake, hdrop⟩ := characters_digits hx ht
  obtain ⟨m, h⟩ := Comes.repeated (P := program pageSize) (Match.class_range [48] [57])
    (characters (x ++ t))
  rw [htake, hdrop, decide_eq_true (by simpa using h0)] at h
  exact ⟨_, h.capture rfl⟩

/-- Digits are a number with these as its value. -/
theorem number_comes (h0 : x ≠ []) (hx : ∀ b ∈ x, isDigit b = true) (ht : AfterNumber t) :
    ∃ m, Comes (program pageSize) number (characters (x ++ t)) false true
      (.capture (fun _ => true) x m (some true)) (characters t) [] := by
  have hascii : ∀ b ∈ t.head?, b < 0x80 := fun b hb => (ht b hb).1
  have hminus : Comes (program pageSize) (.character (some [45]) none) (characters (x ++ t))
    false false
      (.character (some [45]) (some false)) (characters (x ++ t)) [] := by
    obtain ⟨b, x, rfl⟩ := List.exists_cons_of_ne_nil h0
    have hb := hx b List.mem_cons_self
    refine comes_byte_ne pageSize (fun d hd => ?_) (fun heq => ?_)
    · obtain rfl := Option.some.inj hd
      exact isDigit_ascii hb
    · obtain rfl := Option.some.inj heq
      exact absurd hb (by decide)
  obtain ⟨_, hinteger⟩ := integer_comes pageSize h0 hx ht
  have hpoint : t.head? ≠ some 46 := fun heq => (ht 46 heq).2.2 (by decide)
  have hfraction : Sequence (program pageSize) [] [.character (some [46]) none, integer]
    (characters t) false _ (characters t) [] :=
    .failed _ (comes_byte_ne pageSize hascii hpoint)
  obtain ⟨_, hfraction⟩ := hfraction.comes
  have hmark : ∀ c ∈ (characters t).head?, decide (c ∈ [[69], [101]]) = false := by
    intro c hc
    rw [head_characters hascii] at hc
    obtain ⟨b, hb, rfl⟩ := Option.map_eq_some_iff.mp hc
    refine decide_eq_false fun hmem => (ht b hb).2.2 ?_
    rcases List.mem_pair.mp hmem with heq | heq
    · rw [List.singleton_inj.mp heq]
      decide
    · rw [List.singleton_inj.mp heq]
      decide
  obtain ⟨_, he⟩ := class_fails pageSize (Match.class_or [[69], [101]]) hmark
  have hexponent :
    Sequence (program pageSize) [] [.or [.character (some [69]) none, .character (some [101]) none]
    none none, .optional sign none,
      integer] (characters t) false _ (characters t) [] := .failed _ he
  obtain ⟨_, hexponent⟩ := hexponent.comes
  obtain ⟨_, hseq⟩ :=
    (Sequence.cons (List.cons_ne_nil _ _) hminus.optional (.cons (List.cons_ne_nil _ _) hinteger
    (.cons (List.cons_ne_nil _ _) hfraction.optional (.last hexponent.optional)))).comes
  exact ⟨_, captured pageSize (fun b hb => isDigit_ascii (hx b hb)) rfl hseq⟩

/-! ### The items of a value -/

/-- Whether an item may start with a byte. -/
def startsItem (i : ℕ) (b : UInt8) : Bool :=
  match i with
  | 0 => b == 117
  | 1 => b == 110
  | 2 => b == 116 || b == 102
  | 3 => b == 45 || isDigit b
  | 4 => b == 34
  | 5 => b == 91
  | 6 => b == 123
  | _ => false

theorem refuses_digit (h : isDigit b = false) : Match.Refuses (program pageSize) [b] integer := by
  have hrange : Match.Refuses (program pageSize) [b] (.range [48] [57] none) := by
    refine ⟨rfl, .range [48] [57] (some false), .of_succ 0 fun fuel _ => ?_, rfl, _,
      .of_succ 0 fun _ _ => rfl, rfl⟩
    rw [Match.matches_, range_digit, h]
    rfl
  exact hrange.repeated.capture

theorem items_refuse (hblank : isBlank b = false) : ∀ i, startsItem i b = false →
    ∀ m, items[i]? = some m →
    Match.Refuses (program pageSize) [b] m
  | 0, h, _, rfl => .word _ (show b ≠ 117 from ne_of_beq_false h)
  | 1, h, _, rfl => .word _ (show b ≠ 110 from ne_of_beq_false h)
  | 2, h, _, rfl => by
    obtain ⟨ht, hf⟩ := Bool.or_eq_false_iff.mp h
    refine Match.Refuses.capture (.or ?_)
    intro k hk
    rcases List.mem_pair.mp hk with rfl | rfl
    · exact .word _ (show b ≠ 116 from ne_of_beq_false ht)
    · exact .word _ (show b ≠ 102 from ne_of_beq_false hf)
  | 3, h, _, rfl => by
    obtain ⟨hminus, hdigit⟩ := Bool.or_eq_false_iff.mp h
    have hturn := (Match.Turn.character (P := program pageSize) [45] [b]).optional
    have hne : ([45] == [b]) = false := by simpa using Ne.symm (ne_of_beq_false hminus)
    rw [hne] at hturn
    exact Match.Refuses.capture (.and_next _ hturn rfl (refuses_digit pageSize hdigit))
  | 4, h, _, rfl =>
    .object rfl
      (.and _ (.invoke (.character (by simpa [startsItem] using Ne.symm (ne_of_beq_false h)))))
  | 5, h, _, rfl =>
    .and _ (.invoke (.and _ (.character (by simpa [startsItem] using Ne.symm (ne_of_beq_false h)))))
  | 6, h, _, rfl => by
    obtain ⟨m, hturn, hr⟩ := (Match.class_or (P := program pageSize) blanks).refuses [b] hblank
    have hskip : Match.Turn (program pageSize) (blankSpace 0) [b] _ false [] :=
      hturn.repeated_failed hr
    have hbrace : Match.Refuses (program pageSize) [b] (.character (some [123]) none) :=
      .character (by simpa [startsItem] using Ne.symm (ne_of_beq_false h))
    exact .and _ (.invoke (.and_next _ hskip rfl hbrace))

theorem result_items : ∀ m ∈ items, m.result = none := by
  intro m hm
  simp only [items, List.mem_cons, List.not_mem_nil, or_false] at hm
  rcases hm with rfl | rfl | rfl | rfl | rfl | rfl | rfl <;> rfl

theorem json_blank (hb : b < 0x80) (hblank : isBlank b = false) (t : BString) :
    ∃ m, Comes (program pageSize) (blankSpace 0) (characters (b :: t)) false true m
      (characters (b :: t)) [] :=
  blankSpace_any pageSize (List.forall_mem_nil _) (fresh_cons hb hblank t)

/-- A value comes to what the one item comes to that may start with its first
byte. -/
theorem json_comes {i : ℕ} {m m' : JSONMatch} {r : Bool} {calls : List (JSONCall × JSONMatch)}
    (hi : items[i]? = some m)
    (hb : b < 0x80) (hblank : isBlank b = false)
    (hother : ∀ j < items.length, j ≠ i → startsItem j b = false)
    (h : Comes (program pageSize) m (characters (b :: x)) false r m' (characters t) calls) :
    ∃ k last,
      Comes (program pageSize) json (characters (b :: x)) false r k (characters t)
        (calls ++ if r then [(.onvalue, last)] else []) ∧
        (r = true → ∀ stack, ScriptParser.hear stack .onvalue last = ScriptParser.onvalue stack
          (type i (itemValue m')) (itemValue m')) := by
  obtain ⟨hlt, hget⟩ := List.getElem?_eq_some_iff.mp hi
  have hsplit : items.take i ++ m :: items.drop (i + 1) = items := by
    rw [← hget, List.cons_getElem_drop_succ, List.take_append_drop]
  have hbefore : ∀ k ∈ items.take i, Match.Refuses (program pageSize) [b] k := by
    intro k hk
    obtain ⟨j, hj, rfl⟩ := List.mem_iff_getElem.mp hk
    rw [List.length_take] at hj
    refine items_refuse pageSize hblank j (hother j (by omega) (by omega)) _ ?_
    rw [List.getElem_take, List.getElem?_eq_getElem]
  have hafter : ∀ k ∈ items.drop (i + 1), Match.Refuses (program pageSize) [b] k := by
    intro k hk
    obtain ⟨j, hj, rfl⟩ := List.mem_iff_getElem.mp hk
    rw [List.length_drop] at hj
    refine items_refuse pageSize hblank (i + 1 + j) (hother _ (by omega) (by omega)) _ ?_
    rw [List.getElem_drop, List.getElem?_eq_getElem]
  have hm := result_items m (List.mem_of_getElem? hi)
  obtain ⟨_, hskip⟩ := json_blank pageSize hb hblank x
  rw [characters_byte hb] at h hskip ⊢
  obtain ⟨inputs, found, hor, hfound⟩ := h.or hbefore hafter hm
  rw [hsplit] at hor
  obtain ⟨_, hseq⟩ := (Sequence.cons (List.cons_ne_nil _ _) hskip (.last hor)).comes
  refine ⟨_, _, hseq.invoke rfl, ?_⟩
  rintro rfl stack
  obtain ⟨rfl, hget⟩ := hfound rfl
  rw [List.length_take, Nat.min_eq_left hlt.le] at hget ⊢
  simp only [List.nil_append, List.cons_append, ScriptParser.hear, List.getD_eq_getElem?_getD, hget,
    Option.getD_some]

/-- A byte that no value starts with. -/
theorem json_fails (hb : b < 0x80) (hblank : isBlank b = false)
    (hstart : ∀ j < items.length, startsItem j b = false) (t : BString) :
    ∃ k, Comes (program pageSize) json (characters (b :: t)) false false k
      (characters (b :: t)) [] := by
  have hall : ∀ k ∈ items, Match.Refuses (program pageSize) [b] k := by
    intro k hk
    obtain ⟨j, hj, rfl⟩ := List.mem_iff_getElem.mp hk
    exact items_refuse pageSize hblank j (hstart j hj) _ (List.getElem?_eq_getElem hj)
  obtain ⟨ms, hturn⟩ := Match.Turn.or_refuses hall
  obtain ⟨_, hskip⟩ := json_blank pageSize hb hblank t
  rw [characters_byte hb] at hskip ⊢
  have hor : Comes (program pageSize) (.or items none none) ([b] :: characters t) false false _
    ([b] :: characters t) [] :=
    .failed (.failed hturn rfl)
  obtain ⟨_, hseq⟩ := (Sequence.cons (List.cons_ne_nil _ _) hskip (.last hor)).comes
  exact ⟨_, hseq.invoke rfl⟩

/-- What is loaded on demand. -/
theorem value_comes {m : JSONMatch} {r : Bool} {calls : List (JSONCall × JSONMatch)} (hb : b < 0x80)
    (h : Comes (program pageSize) json (characters (b :: x)) false r m (characters t) calls) :
    ∃ k, Comes (program pageSize) value (characters (b :: x)) false r k (characters t) calls := by
  rw [characters_byte hb] at h ⊢
  exact Comes.loadOnDemand (P := program pageSize) (k := ()) h

end JSONGrammar

end BeeFish
