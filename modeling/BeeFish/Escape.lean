/-
# Escaping in pages

`BString::escape` (b-string/b-string-base.h) writes a text character by
character with the marks of JSON. A stored string is written page by page
(`JSONPath::write`), with the bytes of the character that a page ends inside
carried to the next page. `escape` puts these bytes before the page, and
`nextUTF8` puts them there a second time, so the character comes out with its
first bytes twice: the pages are written as the whole text is exactly when none
of them ends inside a character (`write_pages`).

Key definitions: `escapeChar`, `escape`, `escapePart`, `writeString`.
-/
import BeeFish.Pages

namespace BeeFish

open Utf8

namespace BString

/-! ### Escaping -/

/-- `hex` with two digits. -/
def hexByte (b : UInt8) : BString :=
  let digit := fun n : ℕ => UInt8.ofNat (if n < 10 then 48 + n else 87 + n)
  [digit (b.toNat / 16), digit (b.toNat % 16)]

/-- `BString::escape` of a character. The C string `"\0"` is the empty one. -/
def escapeChar (c : BString) : BString :=
  if c = [] then [92, 48]
  else if c = [34] then [92, 34]
  else if c = [92] then [92, 92]
  else if c = [8] then [92, 98]
  else if c = [12] then [92, 102]
  else if c = [13] then [92, 114]
  else if c = [10] then [92, 110]
  else if c = [9] then [92, 116]
  else if c = [11] then [92, 118]
  else
    match c with
    | [b] => if b < 0x80 then [b] else [92, 117] ++ hexByte 0 ++ hexByte b
    | _ => c

/-- The loop of both `escape`: what is written and the part of a character that
is left. -/
def escapeFrom (value : BString) (position : ℕ) (partUTF8 : BString) : BString × BString :=
  if h : position < value.length then
    let next := nextUTF8 value position partUTF8
    have := lt_nextUTF8 h partUTF8
    let rest := escapeFrom value next.2.1 next.2.2
    if next.2.2.length = 0 then (escapeChar next.1 ++ rest.1, rest.2) else rest
  else ([], partUTF8)
termination_by value.length - position

/-- `BString::escape` of a whole text. -/
def escape (s : BString) : BString := (escapeFrom s 0 []).1

/-- `BString::escape` of a page after the part of a character. -/
def escapePart (s partUTF8 : BString) : BString × BString := escapeFrom (partUTF8 ++ s) 0 partUTF8

end BString

open BString

/-- The pages of a string, one after another. -/
def writePages (partWord : BString) : List BString → BString
  | [] => []
  | page :: pages => (escapePart page partWord).1 ++ writePages (escapePart page partWord).2 pages

/-- `JSONPath::write` of a string. -/
def writeString (pages : List BString) : BString := [34] ++ writePages [] pages ++ [34]

/-! ### Whole characters -/

variable {s part : BString} {position : ℕ}

theorem escapeFrom_end (h : s.drop position = []) : escapeFrom s position part = ([], part) := by
  rw [escapeFrom, dif_neg (Nat.not_lt.mpr (List.drop_eq_nil_iff.mp h))]

theorem escapeFrom_next {c part' : BString} {position' : ℕ} (h : position < s.length)
    (hnext : nextUTF8 s position part = (c, position', part')) : escapeFrom s position part =
      if part'.length = 0 then (escapeChar c ++ (escapeFrom s position' part').1,
        (escapeFrom s position' part').2)
      else escapeFrom s position' part' := by
  rw [escapeFrom, dif_pos h]
  simp only [hnext]

/-- Whole characters are escaped one by one. -/
theorem escapeFrom_text (hp : IsPart part) : ∀ {cs : List BString} {position : ℕ}, IsText cs →
    s.drop position = cs.flatten ++ part → escapeFrom s position [] = (cs.flatMap escapeChar, part)
  | [], position, _, hs => by
    have hs : s.drop position = part := hs
    by_cases h0 : part = []
    · rw [escapeFrom_end (hs.trans h0), h0]
      rfl
    · obtain ⟨hlt, hrest⟩ := lt_of_drop h0 (hs.trans (List.append_nil part).symm)
      have hend : s.drop (position + part.length + part.length) = [] := by
        rw [← List.drop_drop, hrest, List.drop_nil]
      rw [escapeFrom_next hlt (nextUTF8_part hp h0 hs), if_neg (by simpa using h0),
        escapeFrom_end hend]
      rfl
  | c :: cs, position, ht, hs => by
    have hc := ht c List.mem_cons_self
    rw [List.flatten_cons, List.append_assoc] at hs
    obtain ⟨hlt, hrest⟩ := lt_of_drop hc.ne_nil hs
    have ih := escapeFrom_text hp (fun k hk => ht k (List.mem_cons_of_mem _ hk)) hrest
    rw [escapeFrom_next hlt (nextUTF8_char hc hs), if_pos List.length_nil, ih]
    rfl

theorem escape_text {cs : List BString} (ht : IsText cs) :
    escape cs.flatten = cs.flatMap escapeChar := by
  unfold escape
  rw [escapeFrom_text (Or.inl rfl) ht (List.append_nil _).symm]

/-- A page that starts with a character. -/
theorem escapePart_text (hp : IsPart part) {cs : List BString} (ht : IsText cs) :
    escapePart (cs.flatten ++ part) [] = (cs.flatMap escapeChar, part) := escapeFrom_text hp ht rfl

/-! ### A part of a character -/

/-- The bytes of a character are read to its width, or to the end. -/
theorem readPart_reads : ∀ (rest : BString) (expected : ℕ) (q : BString), ∃ r, r <+: rest ∧
    (readPart expected q rest).2 = q ++ r ∧ ((readPart expected q rest).1 ≠ 0 → r = rest) ∧
      (r = rest ∨ expected - 1 ≤ r.length)
  | [], _, q => ⟨[], List.prefix_rfl, by simp [readPart], fun _ => rfl, Or.inl rfl⟩
  | b :: rest, expected, q => by
    rw [readPart]
    by_cases h0 : expected - 1 = 0
    · exact ⟨[], List.nil_prefix, by simp [h0], by simp [h0], Or.inr (by simp [h0])⟩
    · simp only [h0, if_false]
      obtain ⟨r, hr, heq, hend, hlen⟩ :=
        readPart_reads rest (if expectNextByte b then expected - 1 + 1 else expected - 1) (q ++ [b])
      refine ⟨b :: r, List.cons_prefix_cons.mpr ⟨rfl, hr⟩, by simpa using heq,
        fun h => by rw [hend h], ?_⟩
      rcases hlen with rfl | hlen
      · exact Or.inl rfl
      · refine Or.inr ?_
        simp only [List.length_cons]
        split_ifs at hlen <;> omega

theorem escapeChar_long {c : BString} (h : 2 ≤ c.length) : escapeChar c = c := by
  match c, h with
  | a :: b :: rest, _ => simp [escapeChar]

variable {c : BString} {lead : UInt8} {tail : BString}

/-- What is read after the part of a character starts with the part and its
first byte. -/
theorem escapePart_again (hc : IsChar c) (hp : lead :: tail <+: c) (hne : lead :: tail ≠ c)
    {q : BString}
    (hq : lead :: tail ++ [lead] <+: q ++ q) (page : BString) :
    ((escapePart page q).1 = [] ∧
      lead :: tail ++ [lead] <+: (escapePart page q).2 ++ (escapePart page q).2) ∨
      lead :: tail ++ [lead] <+: (escapePart page q).1 := by
  have hlen : (lead :: tail).length < c.length :=
    lt_of_le_of_ne hp.length_le fun h => hne (hp.eq_of_length h)
  have hwidth : c.length = width lead := by
    obtain ⟨rest, rfl⟩ := hp
    exact hc.width
  simp only [List.length_cons] at hlen
  obtain ⟨q, rfl⟩ : ∃ q', q = lead :: q' := by
    obtain ⟨rest, hrest⟩ := hq
    cases q with
    | nil => simp at hrest
    | cons b q =>
      rw [List.cons_append, List.cons_append, List.cons_append, List.cons.injEq] at hrest
      exact ⟨q, by rw [hrest.1]⟩
  obtain ⟨r, hr, hread, hend, hlong⟩ := readPart_reads (q ++ (lead :: q ++ page))
    (expectedBytes lead) [lead]
  have hexpected : expectedBytes lead = c.length := by
    rw [expectedBytes_eq lead (by omega), if_neg (by omega), hwidth]
  have hpre : lead :: tail ++ [lead] <+: lead :: r := by
    have hpre' : lead :: tail ++ [lead] <+: lead :: (q ++ (lead :: q ++ page)) := by
      refine hq.trans ⟨page, ?_⟩
      simp
    rcases hlong with rfl | hlong
    · exact hpre'
    · refine List.prefix_of_prefix_length_le hpre' (List.cons_prefix_cons.mpr ⟨rfl, hr⟩) ?_
      simp only [List.length_append, List.length_cons, List.length_nil]
      omega
  have hnext : nextUTF8 (lead :: q ++ page) 0 (lead :: q) =
      if (readPart (expectedBytes lead) [lead] (q ++ (lead :: q ++ page))).1 =
        0 then (lead :: r, 0 + (lead :: r).length, [])
      else ([], 0 + (lead :: r).length + (lead :: r).length, lead :: r) := by
    unfold nextUTF8
    rw [List.drop_zero,
      show lead :: q ++ (lead :: q ++ page) = lead :: (q ++ (lead :: q ++ page)) from rfl]
    simp only [hread, List.singleton_append]
  have hpos : 0 < (lead :: q ++ page).length := by simp
  unfold escapePart
  by_cases h0 : (readPart (expectedBytes lead) [lead] (q ++ (lead :: q ++ page))).1 = 0
  · right
    rw [if_pos h0] at hnext
    rw [escapeFrom_next hpos hnext, if_pos List.length_nil]
    have h2 : 2 ≤ (lead :: r).length := by
      have := hpre.length_le
      simp only [List.length_append, List.length_cons, List.length_nil] at this ⊢
      omega
    rw [escapeChar_long h2]
    exact hpre.trans (List.prefix_append _ _)
  · left
    rw [if_neg h0] at hnext
    have hdrop : (lead :: q ++ page).drop (0 + (lead :: r).length + (lead :: r).length) = [] := by
      rw [List.drop_eq_nil_iff, hend h0]
      simp only [List.length_append, List.length_cons]
      omega
    rw [escapeFrom_next hpos hnext, if_neg (by simp), escapeFrom_end hdrop]
    exact ⟨rfl, hpre.trans (List.prefix_append _ _)⟩

/-- The first byte of the character comes where another one is missing, or the
character is not written. -/
theorem writePages_again (hc : IsChar c) (hp : lead :: tail <+: c) (hne : lead :: tail ≠ c) :
    ∀ {pages : List BString} {q : BString}, lead :: tail ++ [lead] <+: q ++ q →
      writePages q pages = [] ∨ lead :: tail ++ [lead] <+: writePages q pages
  | [], _, _ => Or.inl rfl
  | page :: pages, q, hq => by
    rw [writePages]
    rcases escapePart_again hc hp hne hq page with ⟨hnil, hq'⟩ | hout
    · rw [hnil, List.nil_append]
      exact writePages_again hc hp hne hq'
    · exact Or.inr (hout.trans (List.prefix_append _ _))

/-- A character that starts with the part and another byte is not written. -/
theorem writePages_part (hc : IsChar c) (hp : lead :: tail <+: c) (hne : lead :: tail ≠ c)
    (pages : List BString) (rest : BString) :
    writePages (lead :: tail) pages ≠ escapeChar c ++ rest := by
  obtain ⟨more, rfl⟩ := hp
  obtain ⟨b, more, rfl⟩ : ∃ b more', more = b :: more' :=
    List.exists_cons_of_ne_nil fun h => hne (by rw [h, List.append_nil])
  have hb : IsTail b := hc.tail b (by simp)
  have hlead : ¬ IsTail lead := by
    intro ht
    have hall : ∀ n : Fin 256, IsTail (UInt8.ofNat n) → width (UInt8.ofNat n) = 0 := by
      decide +kernel
    have h0 := hall ⟨lead.toNat, lead.toNat_lt⟩
    simp only [UInt8.ofNat_toNat] at h0
    have hw := hc.width
    simp [h0 ht] at hw
  rw [escapeChar_long (by simp; omega)]
  intro h
  have hagain : lead :: tail ++ [lead] <+: (lead :: tail) ++ (lead :: tail) := ⟨tail, by simp⟩
  rcases writePages_again hc (List.prefix_append _ _) hne hagain with hnil | hpre
  · rw [hnil] at h
    simp at h
  · rw [h] at hpre
    have heq : lead = b := by simpa using hpre
    exact hlead (heq ▸ hb)

/-! ### All pages -/

/-- Whole characters. -/
def Whole (page : BString) : Prop := ∃ cs, IsText cs ∧ page = cs.flatten

theorem whole_iff {cs post : List BString} {part : BString} (h : IsText (cs ++ post))
    (hb : Begins post part) :
    Whole (cs.flatten ++ part) ↔ part = [] := by
  constructor
  · rintro ⟨ks, hks, heq⟩
    have hsplit : split (cs.flatten ++ part) = (cs, part) := by
      rw [split_append, split_flatten fun k hk => h k (List.mem_append_left _ hk)]
      exact foldl_feed_begins (fun k hk => h k (List.mem_append_right _ hk)) hb
    rw [heq, split_flatten hks] at hsplit
    exact (congrArg Prod.snd hsplit).symm
  · rintro rfl
    exact ⟨cs, fun k hk => h k (List.mem_append_left _ hk), List.append_nil _⟩

theorem writePages_eq : ∀ {pages cs : List BString}, IsText cs → pages.flatten = cs.flatten →
    (writePages [] pages = cs.flatMap escapeChar ↔ ∀ page ∈ pages, Whole page)
  | [], cs, ht, heq => by
    obtain ⟨rfl, -⟩ := Begins.eq_nil (.nil cs) ht heq.symm
    simp [writePages]
  | page :: pages, cs, ht, heq => by
    rw [List.flatten_cons] at heq
    obtain ⟨pre, post, part, rfl, rfl, hb, -⟩ := split_isPrefix ht ⟨pages.flatten, heq⟩
    have hpre : IsText pre := fun k hk => ht k (List.mem_append_left _ hk)
    have hpost : IsText post := fun k hk => ht k (List.mem_append_right _ hk)
    rw [List.flatten_append, List.append_assoc, List.append_cancel_left_eq] at heq
    have hpart : IsPart part := isPart_of_begins hpost hb
    rw [writePages, escapePart_text hpart hpre, List.flatMap_append, List.append_cancel_left_eq,
      List.forall_mem_cons,
      whole_iff ht hb]
    cases hb with
    | nil =>
      rw [writePages_eq hpost (by simpa using heq)]
      simp
    | @part c part cs hp hne h0 =>
      obtain ⟨lead, tail, rfl⟩ := List.exists_cons_of_ne_nil h0
      have hnot := writePages_part (hpost c List.mem_cons_self) hp hne pages (cs.flatMap escapeChar)
      simp [hnot]

/-- **Pages and escaping.** A text is written page by page as it is written as
a whole exactly when every page is of whole characters. -/
theorem write_pages {pages cs : List BString} (ht : IsText cs) (heq : pages.flatten = cs.flatten) :
    writeString pages = [34] ++ escape cs.flatten ++ [34] ↔ ∀ page ∈ pages, Whole page := by
  unfold writeString
  rw [escape_text ht, ← writePages_eq ht heq]
  simp

theorem write_pages_ab :
    writeString [[97], [34, 98]] = [34] ++ escape [97, 34, 98] ++ [34] ↔ ∀ page ∈ [[97], [34, 98]],
      Whole page :=
  write_pages (isText_ascii (show [[97], [34], [98]].all _ = true by decide)) rfl

/-- The letter `é` in two pages comes out as its first byte, twice. -/
theorem writeString_cut : ¬ ∀ (cs : List BString), IsText cs → ∀ pages : List BString,
    pages.flatten = cs.flatten →
    writeString pages = [34] ++ escape cs.flatten ++ [34] := by
  have ht : IsText [[0xC3, 0xA9]] := by
    intro c hc
    obtain rfl := List.mem_singleton.mp hc
    exact ⟨by decide, by decide, by decide +kernel, by decide⟩
  intro h
  have heq := h _ ht [[0xC3], [0xA9]] rfl
  have hpart : IsPart [0xC3] := Or.inr ⟨_, ht _ List.mem_cons_self, by decide, by decide⟩
  have hnil : IsText [] := nofun
  have hfirst : escapePart [0xC3] [] = ([], [0xC3]) := escapePart_text hpart hnil
  have hsecond : escapePart [0xA9] [0xC3] = ([0xC3, 0xC3], []) := by
    unfold escapePart
    rw [escapeFrom_next (by decide) (show nextUTF8 _ 0 [0xC3] = ([0xC3, 0xC3], 2, []) by decide),
      if_pos List.length_nil,
      escapeFrom_end rfl]
    rfl
  have hwrite : writeString [[0xC3], [0xA9]] = [34, 0xC3, 0xC3, 34] := by
    rw [writeString, writePages, hfirst, writePages, hsecond]
    rfl
  rw [hwrite, escape_text ht] at heq
  exact absurd heq (by decide)

end BeeFish
