/-
# Tokens of a text in pages

`JSONPath::setString` and `endString` tokenise a text page by page: each page
with the part word of the pages before it, and at the end the empty string as
the final word. `Reading` follows the tokens of a text character by character:
the tokens that are finished, the characters of the last one, and whether it
could still go on (`Mode`).

The part word holds the last token but not the blanks after it, so the next
page may go on with a token that has ended; and the last word is lost if the
page ends inside the character after it. Where the pages are cut elsewhere
(`Clean`) they give the words of the whole text (`tokenise_pages`).

Key definitions: `tokenisePages`, `Reading`, `Clean`.
-/
import BeeFish.Scan

namespace BeeFish

open Utf8 BString

/-- The words `setString` gets for the pages in turn and `endString` at the
end. -/
def tokenisePages (L : Locale) : List BString → BString → List BString
  | [], partWord => (tokenise L [] partWord true false).1
  | page :: pages, partWord =>
    let (words, partWord) := tokenise L page partWord false false
    words ++ tokenisePages L pages partWord

/-! ### Reading a text -/

/-- No word to go on with, the last token is an unfinished word, or a word that
has ended. -/
inductive Mode where
  | fresh
  | word
  | gap
  deriving DecidableEq

structure Reading where
  tokens : List BString
  last : List BString
  mode : Mode

namespace Reading

def start : Reading := ⟨[], [], .fresh⟩

/-- All tokens, the last one included. -/
def closed (r : Reading) : List BString :=
  if r.last = [] then r.tokens else r.tokens ++ [r.last.flatten]

def read (L : Locale) (r : Reading) (c : BString) : Reading :=
  if isEmoji c then ⟨r.closed, [c], .fresh⟩
  else match r.mode with
    | .word => if ends L c then { r with mode := .gap } else { r with last := r.last ++ [c] }
    | _ => if starts L c then ⟨r.closed, [c], .word⟩ else r

def readAll (L : Locale) (r : Reading) (cs : List BString) : Reading := cs.foldl (read L) r

/-- The last token alone. -/
def keep (r : Reading) : Reading := { r with tokens := [] }

/-- The last token as the next page sees it. -/
def carry (r : Reading) : Reading := ⟨[], r.last, if r.mode = .gap then .word else r.mode⟩

/-- The tokens after others. -/
def after (tokens : List BString) (r : Reading) : Reading := { r with tokens := tokens ++ r.tokens }

end Reading

/-- The character goes on with the word before it. -/
def continues (L : Locale) (c : BString) : Bool := !isEmoji c && !ends L c

/-- The mode after some characters. -/
def mode (L : Locale) (cs : List BString) : Mode := (Reading.readAll L .start cs).mode

/-- What a page must keep to, with the bytes before and after it. -/
structure CleanPage (L : Locale) (before page rest : BString) : Prop where
  /-- it does not end inside the character after an unfinished word, -/
  word : mode L (split (before ++ page)).1 = .word → (split (before ++ page)).2 = []
  /-- nor after a word that has ended with a character to come that could go on
  with it; -/
  gap : mode L (split (before ++ page)).1 = .gap →
    ((split (before ++ page ++ rest)).1[(split (before ++ page)).1.length]?).all
      (fun c => !continues L c) = true
  /-- and it does not stay inside the character after a word that has ended. -/
  short : mode L (split before).1 = .gap → (split (before ++ page)).1 = (split before).1 →
    (split (before ++ page)).2 = []

def Clean (L : Locale) (before : BString) : List BString → Prop
  | [] => True
  | page :: pages => CleanPage L before page pages.flatten ∧ Clean L (before ++ page) pages

namespace Reading

variable {L : Locale} {r : Reading} {c : BString}

/-! ### One character -/

theorem read_emoji (he : isEmoji c) : read L r c = ⟨r.closed, [c], .fresh⟩ := by
  unfold read
  rw [if_pos he]

theorem read_word (he : ¬ isEmoji c) (hm : r.mode = .word) :
    read L r c = if ends L c then { r with mode := .gap }
      else { r with last := r.last ++ [c] } := by
  unfold read
  rw [if_neg he, hm]

theorem read_else (he : ¬ isEmoji c) (hm : r.mode ≠ .word) :
    read L r c = if starts L c then ⟨r.closed, [c], .word⟩ else r := by
  unfold read
  rw [if_neg he]
  split
  · exact absurd ‹_› hm
  · rfl

theorem closed_after (tokens : List BString) : (r.after tokens).closed = tokens ++ r.closed := by
  unfold closed after
  split_ifs
  · rfl
  · exact List.append_assoc _ _ _

theorem read_after (tokens : List BString) :
    read L (r.after tokens) c = (read L r c).after tokens := by
  by_cases he : isEmoji c
  · rw [read_emoji he, read_emoji he, closed_after]
    rfl
  · by_cases hm : r.mode = .word
    · rw [read_word he hm, read_word he (show (r.after tokens).mode = .word from hm)]
      split_ifs <;> rfl
    · rw [read_else he hm, read_else he (show (r.after tokens).mode ≠ .word from hm), closed_after]
      split_ifs <;> rfl

theorem readAll_after (tokens : List BString) : ∀ {cs : List BString} {r : Reading},
    readAll L (r.after tokens) cs = (readAll L r cs).after tokens
  | [], _ => rfl
  | c :: cs, r => by
    show readAll L (read L (r.after tokens) c) cs = (readAll L (read L r c) cs).after tokens
    rw [read_after, readAll_after tokens]

theorem readAll_append (cs cs' : List BString) :
    readAll L r (cs ++ cs') = readAll L (readAll L r cs) cs' :=
  List.foldl_append

/-- The tokens before the last do not matter for what follows. -/
theorem readAll_keep (cs : List BString) :
    readAll L r cs = (readAll L r.keep cs).after r.tokens := by
  rw [← readAll_after]
  congr 1
  simp [after, keep]

/-! ### What a reading has read -/

variable (L) in
/-- The last token is a text that is read as itself. -/
structure Good (r : Reading) : Prop where
  text : IsText r.last
  none : r.last = [] → r.tokens = [] ∧ r.mode = .fresh
  again : readAll L .start r.last = r.carry

theorem Good.start : Good L .start := ⟨nofun, fun _ => ⟨rfl, rfl⟩, rfl⟩

theorem Good.last_ne_nil (h : Good L r) (hm : r.mode ≠ .fresh) : r.last ≠ [] :=
  fun h0 => hm (h.none h0).2

theorem Good.keep (h : Good L r) : Good L r.keep :=
  ⟨h.text, fun h0 => ⟨rfl, (h.none h0).2⟩, h.again⟩

/-- A character starts a token of its own. -/
theorem Good.single {tokens : List BString} {m : Mode} (hc : IsChar c)
    (h : read L .start c = ⟨[], [c], m⟩)
    (hm : m ≠ .gap) : Good L ⟨tokens, [c], m⟩ := by
  refine ⟨fun k hk => ?_, fun h0 => absurd h0 (List.cons_ne_nil _ _), ?_⟩
  · rw [List.mem_singleton.mp hk]
    exact hc
  · show read L .start c = _
    unfold carry
    rw [h, if_neg hm]

theorem Good.read (h : Good L r) (hc : IsChar c) : Good L (read L r c) := by
  by_cases he : isEmoji c
  · rw [read_emoji he]
    exact Good.single hc (read_emoji he) (by decide)
  by_cases hm : r.mode = .word
  · rw [read_word he hm]
    have hlast := h.last_ne_nil (by rw [hm]; decide)
    split_ifs with hends
    · refine ⟨h.text, fun h0 => absurd h0 hlast, ?_⟩
      rw [h.again]
      simp [carry, hm]
    · refine ⟨fun k hk => ?_, fun h0 => absurd h0 (by simp), ?_⟩
      · rcases List.mem_append.mp hk with hk | hk
        · exact h.text k hk
        · rw [List.mem_singleton.mp hk]
          exact hc
      · have hcm : r.carry.mode = .word := by simp [carry, hm]
        rw [readAll_append, h.again]
        show Reading.read L r.carry c = _
        rw [read_word he hcm, if_neg hends]
        simp [carry, hm]
  · rw [read_else he hm]
    split_ifs with hs
    · refine Good.single hc ?_ (by decide)
      rw [read_else he (by decide), if_pos hs]
      rfl
    · exact h

theorem Good.readAll : ∀ {cs : List BString} {r : Reading}, Good L r → IsText cs →
    Good L (readAll L r cs)
  | [], _, h, _ => h
  | c :: cs, r, h, ht => by
    show Good L (Reading.readAll L (Reading.read L r c) cs)
    exact (h.read (ht c List.mem_cons_self)).readAll fun k hk => ht k (List.mem_cons_of_mem _ hk)

/-- In a good reading nothing comes before no last token. -/
theorem Good.closed_dropLast (h : Good L r) : r.closed.dropLast = r.tokens ∧
    r.closed.getLast?.getD [] = r.last.flatten := by
  unfold closed
  split_ifs with h0
  · simp [(h.none h0).1, h0]
  · simp

/-! ### The tokens of a text -/

/-- The tokens at the end of the text. -/
def done (lost : Bool) (r : Reading) : List BString :=
  if r.mode = .word ∧ lost then r.tokens else r.closed

/-- What is left to scan goes on with a word only if the word can. -/
theorem scan_read (lost : Bool) : ∀ {cs : List BString} {r : Reading}, Good L r → IsText cs →
    (if r.mode = .word then r.tokens ++ scan L lost (some r.last.flatten) cs
      else r.closed ++ scan L lost none cs) =
      (readAll L r cs).done lost
  | [], r, h, _ => by
    show _ = r.done lost
    unfold done
    by_cases hm : r.mode = .word
    · have hlast := h.last_ne_nil (by rw [hm]; decide)
      cases lost <;> simp [hm, scan, closed, hlast]
    · simp [hm, scan]
  | c :: cs, r, h, ht => by
    have hg := h.read (ht c List.mem_cons_self)
    have ih := scan_read lost hg fun k hk => ht k (List.mem_cons_of_mem _ hk)
    show _ = (readAll L (Reading.read L r c) cs).done lost
    rw [← ih]
    by_cases he : isEmoji c
    · rw [read_emoji he]
      by_cases hm : r.mode = .word
      · have hlast := h.last_ne_nil (by rw [hm]; decide)
        simp [hm, scan, he, closed, hlast]
      · simp [hm, scan, he, closed]
    · by_cases hm : r.mode = .word
      · have hlast := h.last_ne_nil (by rw [hm]; decide)
        rw [read_word he hm, if_pos hm, scan, if_neg he]
        by_cases hends : ends L c
        · simp [hends, closed, hlast]
        · simp [hends, hm]
      · rw [read_else he hm, if_neg hm, scan, if_neg he]
        by_cases hs : starts L c
        · simp [hs]
        · simp [hs, hm]

theorem allTokens_eq {cs : List BString} {part : BString} (ht : IsText cs) :
    allTokens L cs part = (readAll L .start cs).done (!part.isEmpty) := by
  have h := scan_read (L := L) (!part.isEmpty) Good.start ht
  rwa [if_neg (by decide)] at h

/-- The next page goes on with the last token: it reads on as the whole text
does, unless the token has ended and the character could go on with it. -/
theorem readAll_carry {cs : List BString}
    (hnext : r.mode = .gap → cs.head?.all (fun c => !continues L c) = true) :
    (readAll L r.carry cs).tokens = (readAll L r.keep cs).tokens ∧
      (readAll L r.carry cs).last = (readAll L r.keep cs).last ∧
      ((readAll L r.carry cs).mode = (readAll L r.keep cs).mode ∨
        cs = [] ∧ r.mode = .gap ∧ (readAll L r.carry cs).mode = .word) := by
  by_cases hm : r.mode = .gap
  · have hkeep : r.keep.mode ≠ .word := by
      rw [show r.keep.mode = .gap from hm]
      decide
    have hcarry : r.carry.mode = .word := by simp [carry, hm]
    cases cs with
    | nil => exact ⟨rfl, rfl, Or.inr ⟨rfl, hm, hcarry⟩⟩
    | cons c cs =>
      have hc : continues L c = false := by simpa using hnext hm
      have hread : Reading.read L r.carry c = Reading.read L r.keep c := by
        by_cases he : isEmoji c
        · rw [read_emoji he, read_emoji he]
          rfl
        · have hends : ends L c = true := by simpa [continues, he] using hc
          have hs : ¬ starts L c = true := by
            simp only [ends, Bool.or_eq_true, Bool.and_eq_true] at hends
            unfold starts
            rcases hends with h | ⟨h, _⟩ <;> simp [h]
          rw [read_word he hcarry, read_else he hkeep, if_pos hends, if_neg hs]
          simp [carry, keep, hm]
      have hall : readAll L r.carry (c :: cs) = readAll L r.keep (c :: cs) :=
        congrArg (readAll L · cs) hread
      rw [hall]
      exact ⟨rfl, rfl, Or.inl rfl⟩
  · have hcarry : r.carry = r.keep := by simp [carry, keep, hm]
    rw [hcarry]
    exact ⟨rfl, rfl, Or.inl rfl⟩

end Reading

open Reading

/-! ### The pages -/

variable {L : Locale}

/-- One page gives the words of the tokens that end in it and leaves the last
token, with the part of a character. -/
theorem tokenise_page {r : Reading} {cs : List BString} {carried page part : BString} (h : Good L r)
    (ht : IsText cs)
    (hp : IsPart part) (hs : carried ++ page = cs.flatten ++ part)
    (hnext : r.mode = .gap → cs.head?.all (fun c => !continues L c) = true)
    (hword : (readAll L r.keep cs).mode = .word → part = [])
    (hshort : r.mode = .gap → cs = [] → part = []) :
    tokenise L page (r.last.flatten ++ carried) false false =
      (wordsOf L (readAll L r.keep cs).tokens, (readAll L r.keep cs).last.flatten ++ part) := by
  have ht' : IsText (r.last ++ cs) := fun c hc => (List.mem_append.mp hc).elim (h.text c) (ht c)
  obtain ⟨htokens, hlast, hmode⟩ := readAll_carry (L := L) hnext
  have hread : readAll L .start (r.last ++ cs) = readAll L r.carry cs := by
    rw [readAll_append, h.again]
  have hgood : Good L (readAll L r.carry cs) := hread ▸ Good.start.readAll ht'
  -- nothing is lost
  have hdone : (readAll L r.carry cs).done (!part.isEmpty) = (readAll L r.carry cs).closed := by
    unfold done
    rw [if_neg]
    rintro ⟨hm, hne⟩
    have h0 : part ≠ [] := by simpa using hne
    rcases hmode with hmode | ⟨hcs, hgap, _⟩
    · exact h0 (hword (hmode ▸ hm))
    · exact h0 (hshort hgap hcs)
  have hspec := tokenise_spec (L := L) hp false nofun ht' (s := page) (r.last.flatten ++ carried)
    (by rw [List.append_assoc, hs, List.flatten_append, List.append_assoc])
  rw [hspec, if_neg (by decide), allTokens_eq ht', hread, hdone, hgood.closed_dropLast.1,
    hgood.closed_dropLast.2,
    htokens, hlast]

/-- The last page leaves the last token, which is given at the end. -/
theorem tokenise_end {r : Reading} (h : Good L r) (w : BString) :
    w ∈ (tokenise L [] r.last.flatten true false).1 ↔ ∃ token ∈ r.keep.closed,
      w ∈ tokenWords L token := by
  have hspec := tokenise_spec (L := L) isPart_nil true (fun _ => rfl) h.text (s := [])
    r.last.flatten rfl
  rw [hspec, if_pos rfl, mem_wordsOf, allTokens_eq h.text, h.again]
  have hdone : r.carry.done (!([] : BString).isEmpty) = r.keep.closed := by
    unfold done
    rw [if_neg (by simp)]
    rfl
  rw [hdone]

theorem mem_tokenisePages {cs : List BString} (ht : IsText cs) :
    ∀ {pages : List BString} {before part : BString}
    (pre post : List BString), cs = pre ++ post → before = pre.flatten ++ part → Begins post part →
    split before = (pre, part) → post.flatten = part ++ pages.flatten → Clean L before pages →
    (mode L pre = .gap → post.head?.all (fun c => !continues L c) = true) → ∀ w,
    (w ∈ tokenisePages L pages ((readAll L .start pre).last.flatten ++ part) ↔
      ∃ token ∈ (readAll L (readAll L .start pre).keep post).closed, w ∈ tokenWords L token)
  | [], before, part, pre, post, hcs, _, hbeg, _, hpost, _, _, w => by
    have hpre : IsText pre := fun c hc => ht c (by rw [hcs]; exact List.mem_append_left _ hc)
    have hpostText : IsText post := fun c hc => ht c (by rw [hcs]; exact List.mem_append_right _ hc)
    obtain ⟨rfl, rfl⟩ := hbeg.eq_nil hpostText (hpost.trans (List.append_nil part))
    rw [List.append_nil]
    exact tokenise_end (Good.start.readAll hpre) w
  | page :: pages, before, part, pre, post, hcs, hbefore, hbeg, hsplit, hpost, hclean, hnext, w =>
    by
    have hpre : IsText pre := fun c hc => ht c (by rw [hcs]; exact List.mem_append_left _ hc)
    have hpostText : IsText post := fun c hc => ht c (by rw [hcs]; exact List.mem_append_right _ hc)
    rw [List.flatten_cons, ← List.append_assoc] at hpost
    -- the characters `new` that the page completes, and the part of one after them
    obtain ⟨new, post', part', rfl, hbytes, hbeg', hfold⟩ :=
      split_isPrefix hpostText (b := part ++ page) ⟨pages.flatten, hpost.symm⟩
    have hnew : IsText new := fun c hc => hpostText c (List.mem_append_left _ hc)
    have hpost'Text : IsText post' := fun c hc => hpostText c (List.mem_append_right _ hc)
    have hpost' : post'.flatten = part' ++ pages.flatten := by
      rw [List.flatten_append, hbytes, List.append_assoc] at hpost
      exact List.append_cancel_left hpost
    have hsplit' : split (before ++ page) = (pre ++ new, part') := by
      rw [split_append, hsplit, ← hfold pre, List.foldl_append, foldl_feed_begins hpostText hbeg]
    have hwhole : split (before ++ page ++ pages.flatten) = (cs, []) := by
      have hbytes' : before ++ page ++ pages.flatten = cs.flatten := by
        rw [hcs, List.flatten_append, hpost, hbefore]
        simp only [List.append_assoc]
      rw [hbytes', split_flatten ht]
    obtain ⟨hpage, hclean'⟩ := hclean
    -- what is read before and after the page
    have hgood : Good L (readAll L .start pre) := Good.start.readAll hpre
    have hafter : readAll L .start (pre ++ new) =
        (readAll L (readAll L .start pre).keep new).after (readAll L .start pre).tokens := by
      rw [readAll_append, readAll_keep]
    have hmode : mode L (pre ++ new) = (readAll L (readAll L .start pre).keep new).mode := by
      unfold mode
      rw [hafter]
      rfl
    have hlast : (readAll L .start (pre ++ new)).last =
      (readAll L (readAll L .start pre).keep new).last := by
      rw [hafter]
      rfl
    have hkeep : (readAll L .start (pre ++ new)).keep =
      (readAll L (readAll L .start pre).keep new).keep := by
      rw [hafter]
      rfl
    have htokenise := tokenise_page hgood hnew (isPart_of_begins hpost'Text hbeg') hbytes
      (fun hgap => by
        cases new with
        | nil => rfl
        | cons c new => exact hnext hgap)
      (fun hword => by
        have h := hpage.word
        rw [hsplit'] at h
        exact h (hmode.trans hword))
      (fun hgap hnil => by
        have h := hpage.short
        rw [hsplit, hsplit', hnil, List.append_nil] at h
        exact h hgap rfl)
    have ih := mem_tokenisePages ht (pre ++ new) post' (by rw [hcs, List.append_assoc])
      (by rw [hbefore, List.flatten_append, List.append_assoc, hbytes, List.append_assoc])
        hbeg' hsplit' hpost' hclean'
      (fun hgap => by
        have h := hpage.gap
        rw [hsplit', hwhole, hcs] at h
        have hget : (pre ++ (new ++ post'))[(pre ++ new).length]? = post'.head? := by
          rw [← List.append_assoc, List.getElem?_append_right (Nat.le_refl _), Nat.sub_self,
            List.head?_eq_getElem?]
        rw [hget] at h
        exact h hgap) w
    rw [hlast, hkeep] at ih
    rw [tokenisePages, htokenise]
    simp only [List.mem_append]
    rw [ih, mem_wordsOf, readAll_append,
      readAll_keep (r := readAll L (readAll L .start pre).keep new) post', closed_after]
    simp only [List.mem_append, or_and_right, exists_or]

/-- **Tokenising in pages**: pages that are cut where a token can be carried
over give the words of the whole text. -/
theorem tokenise_pages (L : Locale) (cs : List BString) (ht : IsText cs) (pages : List BString)
    (hpages : pages.flatten = cs.flatten) (hclean : Clean L [] pages) (w : BString) :
    w ∈ tokenisePages L pages [] ↔ w ∈ (tokenise L cs.flatten [] true false).1 := by
  have h := mem_tokenisePages ht [] cs rfl rfl
    (.nil _) rfl hpages.symm hclean nofun w
  have hspec := tokenise_spec (L := L) isPart_nil true (fun _ => rfl) ht (s := cs.flatten)
    [] (by simp)
  rw [hspec, if_pos rfl, mem_wordsOf, allTokens_eq ht]
  have hdone : (readAll L .start cs).done (!([] : BString).isEmpty) =
    (readAll L .start cs).closed := by simp [done]
  rw [hdone]
  exact h

/-! ### Pages that give other words -/

namespace Locale

/-- The C locale on single bytes. -/
def c : Locale where
  iswspace
    | [b] => b == 32 || (9 ≤ b && b ≤ 13)
    | _ => false
  iswpunct
    | [b] => (33 ≤ b && b ≤ 47) || (58 ≤ b && b ≤ 64) || (91 ≤ b && b ≤ 96) || (123 ≤ b && b ≤ 126)
    | _ => false
  toLower := List.map fun b => if 65 ≤ b && b ≤ 90 then b + 32 else b

end Locale

theorem isText_ascii {cs : List BString}
    (h : cs.all (fun c => c.length == 1 && c.all (· < 0x80)) = true) : IsText cs := by
  intro c hc
  have hc' := List.all_eq_true.mp h c hc
  simp only [Bool.and_eq_true, beq_iff_eq] at hc'
  obtain ⟨b, rfl⟩ := List.length_eq_one_iff.mp hc'.1
  exact isChar_ascii (by simpa using hc'.2)

theorem tokenise_pages_ab :
    [97] ∈ tokenisePages .c [[97], [32, 98]]
    [] ↔ [97] ∈ (tokenise .c [97, 32, 98] [] true false).1 :=
  tokenise_pages .c [[97], [32], [98]] (isText_ascii (by decide)) [[97], [32, 98]] rfl
    ⟨⟨by decide, by decide, by decide⟩, ⟨by decide, by decide, by decide⟩, trivial⟩ [97]

/-- The word `a` of the page `"a "` goes on with the page `"b"`. -/
theorem tokenisePages_ab : tokenisePages .c [[97, 32], [98]] [] = wordsOf .c [[97, 98]] := by
  have h1 := tokenise_spec (L := .c) isPart_nil false nofun
    (isText_ascii (show [[97], [32]].all _ = true by decide))
    (s := [97, 32]) [] rfl
  have h2 := tokenise_spec (L := .c) isPart_nil false nofun
    (isText_ascii (show [[97], [98]].all _ = true by decide))
    (s := [98]) [97] rfl
  have h3 := tokenise_spec (L := .c) isPart_nil true (fun _ => rfl)
    (isText_ascii (show [[97], [98]].all _ = true by decide)) (s := []) [97, 98] rfl
  have htokens1 : allTokens .c [[97], [32]] [] = [[97]] := by decide
  have htokens2 : allTokens .c [[97], [98]] [] = [[97, 98]] := by decide
  rw [htokens1] at h1
  rw [htokens2] at h2 h3
  have hnone : wordsOf .c [] = [] := by simp [wordsOf, unique]
  simp only [Bool.false_eq_true, if_false, if_true, List.dropLast_singleton, hnone,
    List.getLast?_singleton,
    Option.getD_some, List.append_nil] at h1 h2 h3
  rw [tokenisePages, h1]
  show [] ++ tokenisePages .c [[98]] [97] = _
  rw [tokenisePages, h2]
  show [] ++ ([] ++ tokenisePages .c [] [97, 98]) = _
  rw [tokenisePages, h3]
  rfl

theorem tokenise_pages_joined : ¬ ∀ (L : Locale) (cs : List BString), IsText cs →
    ∀ pages : List BString,
    pages.flatten = cs.flatten → ∀ w,
      (w ∈ tokenisePages L pages [] ↔ w ∈ (tokenise L cs.flatten [] true false).1) := by
  intro h
  have hiff := h .c [[97], [32], [98]] (isText_ascii (by decide)) [[97, 32], [98]] rfl [97]
  have hwhole := tokenise_spec (L := .c) isPart_nil true (fun _ => rfl)
    (isText_ascii (show [[97], [32], [98]].all _ = true by decide)) (s := [97, 32, 98]) [] rfl
  have htokens : allTokens .c [[97], [32], [98]] [] = [[97], [98]] := by decide
  have hmem : ([97] : BString) ∈ (tokenise .c [97, 32, 98] [] true false).1 := by
    rw [hwhole, if_pos rfl, mem_wordsOf, htokens]
    exact ⟨[97], List.mem_cons_self, List.mem_append_right _ (List.mem_singleton.mpr rfl)⟩
  have hpages := hiff.mpr hmem
  rw [tokenisePages_ab, mem_wordsOf] at hpages
  obtain ⟨token, htoken, hw⟩ := hpages
  obtain rfl := List.mem_singleton.mp htoken
  -- the token has no separator, so it is its only word
  have hsplit : splitOnDot .c [97, 98] 0 [] = [[97, 98]] := by
    rw [splitOnDot, dif_pos (by decide)]
    show splitOnDot .c [97, 98] 1 [97] = _
    rw [splitOnDot, dif_pos (by decide)]
    show splitOnDot .c [97, 98] 2 [97, 98] = _
    rw [splitOnDot, dif_neg (by decide)]
    decide
  rw [tokenWords, hsplit] at hw
  exact absurd hw (by decide)

end BeeFish
