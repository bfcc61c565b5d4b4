/-
# Characters from pages

`BString::nextUTF8` is called again and again on a page, with the position in
it and the part of a character that the last page ended with. The first call on
a page reads the part and the page together, and the position is then one in
both; for the next calls the part is gone and the position is one in the page
alone, so as many bytes of the page as the part had are not read. The
characters of a text come out of its pages exactly when no page that begins
inside a character goes on after it (`read_pages`).

Key definitions: `charactersFrom`, `charactersOfPages`, `StaysInside`.
-/
import BeeFish.Escape

namespace BeeFish

open Utf8

namespace BString

/-- The calls of `nextUTF8` on a page: the characters that are complete, and
the part that is left. -/
def charactersFrom (value : BString) (position : ℕ) (partUTF8 : BString) : List BString × BString :=
  if h : position < value.length then
    let next := nextUTF8 value position partUTF8
    have := lt_nextUTF8 h partUTF8
    let rest := charactersFrom value next.2.1 next.2.2
    if next.2.2.length = 0 then (next.1 :: rest.1, rest.2) else rest
  else ([], partUTF8)
termination_by value.length - position

/-- The characters of pages, after the part of one. -/
def charactersOfPages (partUTF8 : BString) : List BString → List BString
  | [] => []
  | page :: pages =>
    (charactersFrom page 0 partUTF8).1 ++ charactersOfPages (charactersFrom page 0 partUTF8).2 pages

end BString

open BString

/-- After the part of a character: no page that begins inside a character goes
on after it. -/
def StaysInside (part : BString) : List BString → Prop
  | [] => True
  | page :: pages =>
    (part ≠ [] → ∃ c, IsChar c ∧ part ++ page <+: c) ∧ StaysInside (split (part ++ page)).2 pages

variable {page part c : BString} {position : ℕ}

/-- A page that stays inside the character. -/
theorem staysInside_cons {pages : List BString}
    (h : part ≠ [] → ∃ c, IsChar c ∧ part ++ page <+: c) :
    StaysInside part (page :: pages) ↔ StaysInside (split (part ++ page)).2 pages := and_iff_right h

theorem charactersFrom_end (h : page.length ≤ position) :
    charactersFrom page position part = ([], part) := by
  rw [charactersFrom, dif_neg (Nat.not_lt.mpr h)]

theorem charactersFrom_char {position' : ℕ} (h : position < page.length)
    (hnext : nextUTF8 page position part = (c, position', [])) : charactersFrom page position part =
      (c :: (charactersFrom page position' []).1, (charactersFrom page position' []).2) := by
  rw [charactersFrom, dif_pos h]
  simp [hnext]

theorem charactersFrom_part {position' : ℕ} {part' : BString} (h : position < page.length)
    (h0 : part' ≠ [])
    (hnext : nextUTF8 page position part = (c, position', part')) :
    charactersFrom page position part =
      charactersFrom page position' part' := by
  rw [charactersFrom, dif_pos h]
  simp [hnext, h0]

/-! ### Whole characters -/

/-- From a place between two characters all of them are read. -/
theorem charactersFrom_text (hp : IsPart part) : ∀ {cs : List BString} {position : ℕ}, IsText cs →
    page.drop position = cs.flatten ++ part → charactersFrom page position [] = (cs, part)
  | [], position, _, hs => by
    have hs : page.drop position = part := hs
    by_cases h0 : part = []
    · rw [charactersFrom_end (List.drop_eq_nil_iff.mp (hs.trans h0)), h0]
    · obtain ⟨hlt, hrest⟩ := lt_of_drop h0 (hs.trans (List.append_nil part).symm)
      have hend : page.length ≤ position + part.length + part.length := by
        have := List.drop_eq_nil_iff.mp hrest
        omega
      rw [charactersFrom_part hlt h0 (nextUTF8_part hp h0 hs), charactersFrom_end hend]
  | c :: cs, position, ht, hs => by
    have hc := ht c List.mem_cons_self
    rw [List.flatten_cons, List.append_assoc] at hs
    obtain ⟨hlt, hrest⟩ := lt_of_drop hc.ne_nil hs
    have ih := charactersFrom_text hp (fun k hk => ht k (List.mem_cons_of_mem _ hk)) hrest
    rw [charactersFrom_char hlt (nextUTF8_char hc hs), ih]

/-! ### No byte is read twice -/

/-- A call reads the bytes from the position, and if they are not a whole
character it reads to the end. -/
theorem nextUTF8_reads (part page : BString) (position : ℕ) (h : position < (part ++ page).length) :
    ∃ r, r ≠ [] ∧ r <+: (part ++ page).drop position ∧
    (nextUTF8 page position part = (r, position + r.length, []) ∨
      r = (part ++ page).drop position ∧ nextUTF8 page position part =
        ([], position + r.length + r.length, r)) := by
  cases hd : (part ++ page).drop position with
  | nil => exact absurd (List.drop_eq_nil_iff.mp hd) (Nat.not_le.mpr h)
  | cons lead rest =>
    obtain ⟨r, hr, hread, hend, -⟩ := readPart_reads rest (expectedBytes lead) [lead]
    refine ⟨lead :: r, List.cons_ne_nil _ _, List.cons_prefix_cons.mpr ⟨rfl, hr⟩, ?_⟩
    unfold nextUTF8
    by_cases h0 : (readPart (expectedBytes lead) [lead] rest).1 = 0
    · simp [hd, hread, h0]
    · simp [hd, hread, h0, hend h0]

/-- From the position on, a page has no more bytes than are left in it. -/
theorem charactersFrom_length (page : BString) (position : ℕ) :
    (charactersFrom page position []).1.flatten.length +
      (charactersFrom page position []).2.length ≤ page.length - position := by
  by_cases h : position < page.length
  · obtain ⟨r, hne, hr, hnext | ⟨rfl, hnext⟩⟩ := nextUTF8_reads [] page position h
    · have hpos := List.length_pos_iff.mpr hne
      have hlen : r.length ≤ page.length - position := by simpa using hr.length_le
      have ih := charactersFrom_length page (position + r.length)
      rw [charactersFrom_char h hnext]
      simp only [List.flatten_cons, List.length_append]
      omega
    · rw [charactersFrom_part h hne hnext, charactersFrom_end (by simp; omega)]
      simp
  · rw [charactersFrom_end (Nat.not_lt.mp h)]
    simp
termination_by page.length - position

/-- The characters of a page have no more bytes than the page and the part. -/
theorem charactersFrom_length_part (page part : BString) :
    (charactersFrom page 0 part).1.flatten.length + (charactersFrom page 0 part).2.length ≤
      part.length + page.length := by
  by_cases h : 0 < page.length
  · obtain ⟨r, hne, hr, hnext | ⟨rfl, hnext⟩⟩ := nextUTF8_reads part page 0 (by simp; omega)
    · have hlen : r.length ≤ part.length + page.length := by simpa using hr.length_le
      have hrest := charactersFrom_length page (0 + r.length)
      rw [charactersFrom_char h hnext]
      simp only [List.flatten_cons, List.length_append]
      omega
    · rw [charactersFrom_part h hne hnext, charactersFrom_end (by simp; omega)]
      simp
  · rw [charactersFrom_end (Nat.not_lt.mp h)]
    simp

/-- Nor have those of all pages. -/
theorem charactersOfPages_length : ∀ (pages : List BString) (part : BString),
    (charactersOfPages part pages).flatten.length ≤ part.length + pages.flatten.length
  | [], part => by simp [charactersOfPages]
  | page :: pages, part => by
    have hpage := charactersFrom_length_part page part
    have hpages := charactersOfPages_length pages (charactersFrom page 0 part).2
    simp only [charactersOfPages, List.flatten_append, List.flatten_cons, List.length_append]
    omega

/-! ### A page that begins inside a character -/

theorem nextUTF8_again (hpart : part ≠ []) :
    nextUTF8 page 0 part = nextUTF8 (part ++ page) 0 [] := by
  cases he : part ++ page with
  | nil => exact absurd (List.append_eq_nil_iff.mp he).1 hpart
  | cons b rest => simp [nextUTF8, he]

/-- It may end inside the character. -/
theorem charactersFrom_inside (hc : IsChar c) (h0 : part ≠ []) (hpage : page ≠ [])
    (hp : part ++ page <+: c)
    (hne : part ++ page ≠ c) : charactersFrom page 0 part = ([], part ++ page) := by
  have hlt : 0 < page.length := List.length_pos_iff.mpr hpage
  have hne' : part ++ page ≠ [] := by simp [h0]
  have hnext := nextUTF8_part (Or.inr ⟨c, hc, hp, hne⟩) hne' (List.drop_zero (l := part ++ page))
  rw [← nextUTF8_again h0] at hnext
  rw [charactersFrom_part hlt hne' hnext, charactersFrom_end (by simp; omega)]

/-- Where it goes on after the character, its next bytes are not read. -/
theorem charactersFrom_after (hc : IsChar c) (h0 : part ≠ []) (hpage : page ≠ []) (rest : BString)
    (hs : part ++ page = c ++ rest) : charactersFrom page 0 part =
      (c :: (charactersFrom page c.length []).1, (charactersFrom page c.length []).2) := by
  have hlt : 0 < page.length := List.length_pos_iff.mpr hpage
  have hnext := nextUTF8_char hc ((List.drop_zero (l := part ++ page)).trans hs)
  rw [← nextUTF8_again h0, Nat.zero_add] at hnext
  exact charactersFrom_char hlt hnext

/-- Such a page loses bytes, so the characters are not those of the text. -/
theorem length_charactersOfPages_after (hc : IsChar c) (h0 : part ≠ []) {rest : BString}
    (hrest : rest ≠ [])
    (hs : part ++ page = c ++ rest) (hpage : page ≠ []) (pages : List BString) :
    (charactersOfPages part (page :: pages)).flatten.length <
      part.length + (page :: pages).flatten.length := by
  have hlen := congrArg List.length hs
  have hr := List.length_pos_iff.mpr hrest
  have hp := List.length_pos_iff.mpr h0
  have hg := List.length_pos_iff.mpr hpage
  have hafter := charactersFrom_length page c.length
  have hpages := charactersOfPages_length pages (charactersFrom page c.length []).2
  simp only [List.length_append] at hlen
  rw [charactersOfPages, charactersFrom_after hc h0 hpage rest hs]
  simp only [List.flatten_append, List.flatten_cons, List.length_append]
  omega

theorem begins_of_isPart {cs : List BString} (ht : IsText cs) (hp : IsPart part)
    (h : part <+: cs.flatten) : Begins cs part := by
  obtain ⟨pre, post, q, rfl, -, hb, hfold⟩ := split_isPrefix ht h
  have hsplit : part.foldl feed ([], []) = ([], part) := by
    rcases hp with rfl | ⟨c, hc, hpc, hne⟩
    · rfl
    · exact foldl_feed_part hc [] (by simpa) (by simpa)
  rw [hfold, List.nil_append] at hsplit
  obtain ⟨rfl, rfl⟩ := Prod.mk.inj hsplit
  exact hb

theorem split_of_begins {cs : List BString} (ht : IsText cs) (hb : Begins cs part) :
    (split part).2 = part :=
  congrArg Prod.snd (foldl_feed_begins ht hb)

/-- The characters come out of the pages if and only if these stay inside the
characters they begin in. -/
theorem charactersOfPages_eq : ∀ {pages cs : List BString} {part : BString}, IsText cs →
    IsPart part →
    part ++ pages.flatten = cs.flatten →
      (charactersOfPages part pages = cs ↔ StaysInside part pages)
  | [], cs, part, ht, hp, heq => by
    have hb := begins_of_isPart ht hp ⟨_, heq⟩
    obtain ⟨rfl, -⟩ := hb.eq_nil ht (by simpa using heq.symm)
    simp [charactersOfPages, StaysInside]
  | page :: pages, cs, part, ht, hp, heq => by
    have hb := begins_of_isPart ht hp ⟨_, heq⟩
    rw [List.flatten_cons, ← List.append_assoc] at heq
    by_cases hpage : page = []
    · subst hpage
      rw [List.append_nil] at heq
      have hinside : part ≠ [] → ∃ c, IsChar c ∧ part <+: c := fun h0 => by
        obtain ⟨c, hc, hpc, -⟩ := hp.resolve_left h0
        exact ⟨c, hc, hpc⟩
      rw [charactersOfPages, charactersFrom_end (show ([] : BString).length ≤ 0 from Nat.le_refl 0),
        staysInside_cons (by simpa using hinside), List.append_nil,
        split_of_begins ht hb, List.nil_append, charactersOfPages_eq ht hp heq]
    · cases hb with
      | nil =>
        -- the page begins with a character
        rw [List.nil_append] at heq
        obtain ⟨pre, post, part', rfl, rfl, hb', hfold⟩ := split_isPrefix ht ⟨_, heq⟩
        have hpost : IsText post := fun k hk => ht k (List.mem_append_right _ hk)
        have hp' := isPart_of_begins hpost hb'
        have hsplit : (split ([] ++ (pre.flatten ++ part'))).2 = part' :=
          congrArg Prod.snd (hfold [])
        rw [List.flatten_append, List.append_assoc, List.append_cancel_left_eq] at heq
        rw [charactersOfPages, charactersFrom_text hp'
          (fun k hk => ht k (List.mem_append_left _ hk)) rfl, staysInside_cons nofun,
          hsplit, List.append_cancel_left_eq, charactersOfPages_eq hpost hp' heq]
      | @part c _ cs hpc hne h0 =>
        have hc := ht c List.mem_cons_self
        have hcs : IsText cs := fun k hk => ht k (List.mem_cons_of_mem _ hk)
        rw [List.flatten_cons] at heq
        by_cases hin : part ++ page <+: c
        · rw [staysInside_cons fun _ => ⟨c, hc, hin⟩]
          by_cases he : part ++ page = c
          · -- the page ends with the character
            have hafter := charactersFrom_after hc h0 hpage [] (by simpa using he)
            have hlen : page.length ≤ c.length := by
              rw [← he, List.length_append]
              exact Nat.le_add_left _ _
            have hsplit : (split c).2 = [] := congrArg Prod.snd (foldl_feed_char hc)
            rw [he, List.append_cancel_left_eq] at heq
            rw [charactersOfPages, hafter, charactersFrom_end hlen, he, hsplit,
              List.singleton_append, List.cons.injEq,
              charactersOfPages_eq hcs (Or.inl rfl) heq, and_iff_right rfl]
          · -- it ends inside the character
            have hb' : Begins (c :: cs) (part ++ page) := .part cs hin he (by simp [h0])
            rw [charactersOfPages, charactersFrom_inside hc h0 hpage hin he, split_of_begins ht hb',
              List.nil_append,
              charactersOfPages_eq ht (isPart_of_begins ht hb') (by simpa using heq)]
        · -- it goes on after the character
          obtain ⟨rest, hrest⟩ :=
            (List.prefix_or_prefix_of_prefix ⟨_, heq⟩
              (List.prefix_append c cs.flatten)).resolve_left hin
          have hr : rest ≠ [] := by
            rintro rfl
            exact hin (by rw [← hrest, List.append_nil])
          have hlt := length_charactersOfPages_after hc h0 hr hrest.symm hpage pages
          have hlen := congrArg List.length heq
          constructor
          · intro hread
            rw [hread] at hlt
            simp only [List.flatten_cons, List.length_append] at hlt hlen
            omega
          · intro hstays
            obtain ⟨d, hd, hpd⟩ := hstays.1 h0
            have hcd : c <+: d := (List.prefix_append c rest).trans (hrest ▸ hpd)
            obtain rfl := hc.eq_of_isPrefix hd (show c <+: d ++ [] by rwa [List.append_nil])
            exact absurd hpd hin

/-- **Characters and pages.** The calls of `nextUTF8` on the pages of a text
give its characters, each once and in order, if and only if every page that
begins inside a character ends with it or inside it. -/
theorem read_pages {pages cs : List BString} (ht : IsText cs) (heq : pages.flatten = cs.flatten) :
    charactersOfPages [] pages = cs ↔ StaysInside [] pages :=
  charactersOfPages_eq ht (Or.inl rfl) (by rwa [List.nil_append])

/-- The letters `é` and `a` in two pages, and the `a` on the page that begins
inside the `é`. -/
theorem isText_ea : IsText [[0xC3, 0xA9], [0x61]] := by
  intro c hc
  obtain rfl | rfl : c = [0xC3, 0xA9] ∨ c = [0x61] := by simpa using hc
  · exact ⟨by decide, by decide, by decide +kernel, by decide⟩
  · exact isChar_ascii (by decide)

theorem read_pages_ea : charactersOfPages [] [[0xC3], [0xA9], [0x61]] = [[0xC3, 0xA9], [0x61]] ↔
    StaysInside [] [[0xC3], [0xA9], [0x61]] := read_pages isText_ea rfl

/-- The letter `a` is not read. -/
theorem charactersOfPages_lost : ¬ ∀ cs : List BString, IsText cs → ∀ pages : List BString,
    pages.flatten = cs.flatten →
    charactersOfPages [] pages = cs := by
  intro h
  have hread := h _ isText_ea [[0xC3], [0xA9, 0x61]] rfl
  have hfirst : charactersFrom [0xC3] 0 [] = ([], [0xC3]) :=
    charactersFrom_text (Or.inr ⟨_, isText_ea _ List.mem_cons_self, by decide, by decide⟩)
      (show IsText [] from nofun) rfl
  have hsecond := charactersFrom_after (isText_ea _ List.mem_cons_self) (List.cons_ne_nil 0xC3 [])
    (List.cons_ne_nil 0xA9 [0x61])
    [0x61] rfl
  have hend : charactersFrom [0xA9, 0x61] 2 [] = ([], []) := charactersFrom_end (Nat.le_refl 2)
  rw [show ([0xC3, 0xA9] : BString).length = 2 from rfl, hend] at hsecond
  rw [charactersOfPages, hfirst, charactersOfPages, hsecond, charactersOfPages] at hread
  exact absurd hread (by decide)

end BeeFish
