/-
# The parts of the text of a URL

What the matcher of a URL comes to with a text, part by part: the letters that
agree with a protocol and the marks after it are gone also where they are not
one, the domain is the characters up to a mark, a colon after it is gone also
without a port, and what is left up to a blank or a question mark is the path.
The pairs of a search follow one another until one would have no key.

Key definitions: `URLText.scheme`, `URLText.keyValues`, `URLText.read`.
-/
import BeeFish.URLGrammar

namespace BeeFish

open Match URLGrammar

namespace URLText

/-- A character that is none of some. -/
def others (characters : List BString) (c : BString) : Bool := !decide (c ∈ characters)

def digit (c : BString) : Bool := decide (text "0" ≤ c) && decide (c ≤ text "9")

/-- What comes after a character, where it is there. -/
def skip (k : BString) (w : List BString) : List BString := if w.head? = some k then w.tail else w

/-- `Protocol` and the marks after it, with what is left of the text. -/
def scheme (lower : BString → BString) (w : List BString) : Option BString × List BString :=
  let n := common lower (text "https") w
  if 4 ≤ n then (some (w.take n).flatten, (w.drop n).drop (common id (text "://") (w.drop n)))
    else (none, w.drop n)

/-- `Port` after a domain. -/
def portOf (w : List BString) : Option BString × List BString :=
  if w.head? = some (text ":") then
    (if w.tail.takeWhile digit = [] then none else some (w.tail.takeWhile digit).flatten,
      w.tail.dropWhile digit)
  else (none, w)

/-- `Domain` and `Port`. -/
def domainOf (w : List BString) : Option BString × Option BString × List BString :=
  let domain := w.takeWhile (others domainCharacters)
  if domain = [] then (none, none, w)
  else (some domain.flatten, portOf (w.dropWhile (others domainCharacters)))

theorem length_skip_le (k : BString) (w : List BString) : (skip k w).length ≤ w.length := by
  unfold skip
  split_ifs
  · rw [List.length_tail]
    omega
  · rfl

theorem length_dropWhile_le (p : BString → Bool) (w : List BString) :
    (w.dropWhile p).length ≤ w.length :=
  (List.dropWhile_suffix p).length_le

theorem length_dropWhile_lt {p : BString → Bool} {w : List BString} (h : w.takeWhile p ≠ []) :
    (w.dropWhile p).length < w.length := by
  have hlen := congrArg List.length (List.takeWhile_append_dropWhile (p := p) (l := w))
  have hpos := List.length_pos_iff.mpr h
  rw [List.length_append] at hlen
  omega

/-- What comes after a pair. -/
def afterPair (w : List BString) : List BString :=
  skip (text "&")
    ((skip (text "=") (w.dropWhile (others keyCharacters))).dropWhile (others valueCharacters))

/-- The value of a pair. -/
def valueOf (w : List BString) : BString :=
  ((skip (text "=") (w.dropWhile (others keyCharacters))).takeWhile
    (others valueCharacters)).flatten

theorem length_afterPair_lt {w : List BString} (h : w.takeWhile (others keyCharacters) ≠ []) :
    (afterPair w).length < w.length := by
  have hkey := length_dropWhile_lt h
  have h1 := length_skip_le (text "=") (w.dropWhile (others keyCharacters))
  have h2 := length_dropWhile_le (others valueCharacters)
    (skip (text "=") (w.dropWhile (others keyCharacters)))
  have h3 :=
    length_skip_le (text "&") ((skip (text "=") (w.dropWhile (others keyCharacters))).dropWhile
    (others valueCharacters))
  unfold afterPair
  omega

/-- The pairs of a search, and what is left of the text. -/
def keyValues (w : List BString) : List (BString × BString) × List BString :=
  if h : w.takeWhile (others keyCharacters) = [] then ([], w)
  else
    have := length_afterPair_lt h
    let (pairs, rest) := keyValues (afterPair w)
    (((w.takeWhile (others keyCharacters)).flatten, valueOf w) :: pairs, rest)
termination_by w.length

theorem keyValues_none {w : List BString} (h : w.takeWhile (others keyCharacters) = []) :
    keyValues w = ([], w) := by
  rw [keyValues, dif_pos h]

theorem keyValues_cons {w : List BString} (h : w.takeWhile (others keyCharacters) ≠ []) :
    keyValues w =
    (((w.takeWhile (others keyCharacters)).flatten, valueOf w) :: (keyValues (afterPair w)).1,
      (keyValues (afterPair w)).2) := by
  rw [keyValues, dif_neg h]

/-- The pairs of `KeyValues`, the last one of a key. -/
def itemsOf (pairs : List (BString × BString)) : Except BString.Fault (BString → Option BString) :=
  pairs.foldl (fun items pair => URLObject.matchedItem pair.1 pair.2 items) (.ok fun _ => none)

/-- `Search`, with its question mark also where no pair follows. -/
def searchOf (w : List BString) : BString × List (BString × BString) :=
  if w.head? = some (text "?") then (text "?" ++ textBefore (keyValues w.tail).2 w.tail,
    (keyValues w.tail).1) else ([], [])

/-- The parts of a text. -/
def read (lower : BString → BString) (w : List BString) : URLParts :=
  let (protocol, w) := scheme lower w
  let (domain, port, w) := domainOf w
  let (search, pairs) := searchOf (w.dropWhile (others pathCharacters))
  ⟨domain.isSome, protocol, domain, port, (w.takeWhile (others pathCharacters)).flatten, search,
    itemsOf pairs⟩

/-! ### Captures of characters -/

section

variable {φ : Type} {P : Program Empty URLObject URLCall φ} {create : URLMatch}
    {p : BString → Bool} {e : Bool}

theorem class_noneOf (cs : List BString) : Class P (noneOf cs) (others cs) true := class_not cs

theorem class_digit : Class P (.range (text "0") (text "9") none) digit false := class_range _ _

/-- A capture of characters. -/
theorem comes_capture (h : Class P create p e) (w : List BString) :
    ∃ m', Comes P (capture (many create)) w false
    (decide (w.takeWhile p ≠ []))
    (.capture (fun _ => true) (w.takeWhile p).flatten m' (some (decide (w.takeWhile p ≠ []))))
    (w.dropWhile p) [] := by
  obtain ⟨m', hm'⟩ := Comes.repeated h w
  have hcapture := hm'.capture (v := []) rfl
  rw [textBefore_dropWhile, List.nil_append] at hcapture
  exact ⟨m', hcapture⟩

/-- A capture that succeeds sets its variable. -/
theorem comes_captured (h : Class P create p e) {w : List BString} (h0 : w.takeWhile p ≠ [])
    (call : URLCall) : ∃ m' k,
    Comes P (captured (many create) call) w false true k (w.dropWhile p)
      [(call, .capture (fun _ => true) (w.takeWhile p).flatten m' (some true))] := by
  obtain ⟨m', hm'⟩ := comes_capture h w
  rw [decide_eq_true h0] at hm'
  exact ⟨m', _, (hm'.invoke (f := call) rfl).capture rfl⟩

theorem comes_captured_none (h : Class P create p e) {w : List BString} (h0 : w.takeWhile p = [])
    (call : URLCall) : ∃ k,
    Comes P (captured (many create) call) w false false k w [] := by
  obtain ⟨m', hm'⟩ := comes_capture h w
  have hrest : w.dropWhile p = w := by
    have happend := List.takeWhile_append_dropWhile (p := p) (l := w)
    rwa [h0, List.nil_append] at happend
  rw [decide_eq_false (not_not.mpr h0), hrest] at hm'
  exact ⟨_, (hm'.invoke (f := call) rfl).capture rfl⟩

end

/-! ### Origins -/

section

variable {φ : Type} {P : Program Empty URLObject URLCall φ} {lower : BString → BString}
    {w : List BString}

/-- `towlower` takes the words of the protocols, and each character, to letters. -/
structure Legible (lower : BString → BString) (w : List BString) : Prop where
  https : lower (text "https") = text "https"
  http : lower (text "http") = text "http"
  letters : Lettered lower (text "https") w
  marks : Lettered id (text "://") w

theorem comes_protocol (h : Legible lower w) :
    ∃ m', Comes P (protocol lower) w false (decide (4 ≤ common lower (text "https") w))
      (.capture (fun _ => true) (w.take (common lower (text "https") w)).flatten m'
        (some (decide (4 ≤ common lower (text "https") w))))
      (w.drop (common lower (text "https") w)) [] := by
  have hword : text "https" = text "http" ++ [115] := by decide
  have hlen : (text "http").length = 4 := by decide
  obtain ⟨m', hm'⟩ := Comes.longer (P := P) (y := 115) (show text "http" ≠ [] by decide)
    (hword ▸ h.letters)
  rw [← hword, hlen] at hm'
  have hcapture := hm'.capture (v := []) rfl
  rw [textBefore_drop (common_le _ _ _), List.nil_append] at hcapture
  unfold protocol
  rw [h.https, h.http, hword]
  exact ⟨m', hcapture⟩

/-- The option of a protocol and its marks. -/
theorem comes_scheme (h : Legible lower w) : ∃ p q i r,
    Comes P (.optional (.and [protocol lower, .word id (text "://") none] 0 none) none) w false true
      (.optional (.and [p, q] i r) (some true)) (scheme lower w).2
      [] ∧ p.matchedValue = (scheme lower w).1 := by
  obtain ⟨m', hm'⟩ := comes_protocol (P := P) h
  by_cases hn : 4 ≤ common lower (text "https") w
  · obtain ⟨k, hk⟩ := Comes.word (P := P) (show text "://" ≠ [] by decide)
      (h.marks.drop (common lower (text "https") w))
    rw [decide_eq_true hn] at hm'
    obtain ⟨i, hand⟩ := Sequence.comes (.cons (List.cons_ne_nil _ _) hm' (Sequence.last hk))
    simp only [scheme, hn, if_true]
    exact ⟨_, _, _, _, hand.optional, rfl⟩
  · rw [decide_eq_false hn] at hm'
    obtain ⟨i, hand⟩ := Sequence.comes (.failed [.word id (text "://") none] hm')
    simp only [scheme, hn, if_false]
    exact ⟨_, _, _, _, hand.optional, rfl⟩

theorem head?_eq_some {k : BString} (h : w.head? = some k) : w = k :: w.tail :=
  List.eq_cons_of_mem_head? h

/-- The option of a port. -/
theorem comes_port (w : List BString) : ∃ x t i r,
    Comes P (.optional (.and [.character (some (text ":")) none, port] 0 none) none) w false true
      (.optional (.and [x, t] i r) (some true)) (portOf w).2
      [] ∧ t.matchedValue = (portOf w).1 := by
  unfold portOf
  by_cases hhead : w.head? = some (text ":")
  · obtain ⟨m', hm'⟩ := comes_capture (P := P) class_digit w.tail
    have hchar := Comes.character (P := P) (text ":") w.tail
    rw [← head?_eq_some hhead] at hchar
    obtain ⟨i, hand⟩ := Sequence.comes (.cons (List.cons_ne_nil _ _) hchar (Sequence.last hm'))
    rw [if_pos hhead]
    refine ⟨_, _, _, _, hand.optional, ?_⟩
    by_cases h0 : w.tail.takeWhile digit = [] <;> simp [matchedValue, Match.result, h0, value]
  · obtain ⟨i, hand⟩ := Sequence.comes (.failed [port] (Comes.character_ne (P := P) hhead))
    rw [if_neg hhead]
    exact ⟨_, _, _, _, hand.optional, rfl⟩

/-- The option of an origin. -/
theorem comes_origin (h : Legible lower w) : ∃ v p q i r r' d x t j s s' k b,
    Comes P (.optional (origin lower) none) w false true
      (.optional
        (.capture (fun _ => true) v
          (.and [.optional (.and [p, q] i r) r', d, .optional (.and [x, t] j s) s'] k b) b)
        (some true)) (domainOf (scheme lower w).2).2.2 [] ∧
      b = some (domainOf (scheme lower w).2).1.isSome ∧ p.matchedValue = (scheme lower w).1 ∧
      d.matchedValue = (domainOf (scheme lower w).2).1 ∧
        t.matchedValue = (domainOf (scheme lower w).2).2.1 := by
  obtain ⟨p, q, i, r, hscheme, hp⟩ := comes_scheme (P := P) h
  obtain ⟨m', hm'⟩ := comes_capture (P := P) (class_noneOf domainCharacters) (scheme lower w).2
  by_cases h0 : (scheme lower w).2.takeWhile (others domainCharacters) = []
  · have hrest : (scheme lower w).2.dropWhile (others domainCharacters) = (scheme lower w).2 := by
      have happend := List.takeWhile_append_dropWhile (p := others domainCharacters)
        (l := (scheme lower w).2)
      rwa [h0, List.nil_append] at happend
    rw [decide_eq_false (not_not.mpr h0), hrest] at hm'
    obtain ⟨k, hand⟩ := Sequence.comes (.cons (List.cons_ne_nil _ _) hscheme
      (Sequence.failed [.optional (.and [.character (some (text ":")) none, port] 0 none) none]
        hm'))
    simp only [domainOf, h0, if_true]
    exact ⟨_, p, q, i, r, _, _, _, _, _, _, _, _, _, (hand.capture rfl).optional, rfl, hp, rfl, rfl⟩
  · rw [decide_eq_true h0] at hm'
    obtain ⟨x, t, j, s, hport, ht⟩ :=
      comes_port (P := P) ((scheme lower w).2.dropWhile (others domainCharacters))
    obtain ⟨k, hand⟩ := Sequence.comes (.cons (List.cons_ne_nil _ _) hscheme
      (Sequence.cons (List.cons_ne_nil _ _) hm' (Sequence.last hport)))
    simp only [domainOf, h0, if_false]
    exact ⟨_, p, q, i, r, _, _, x, t, _, _, _, _, _, (hand.capture rfl).optional, rfl, hp, rfl, ht⟩

end

/-! ### Searches -/

section

variable {lower : BString → BString} {w : List BString}

theorem dropWhile_of_takeWhile_nil {p : BString → Bool} (h : w.takeWhile p = []) :
    w.dropWhile p = w := by
  have happend := List.takeWhile_append_dropWhile (p := p) (l := w)
  rwa [h, List.nil_append] at happend

/-- The option of one character. -/
theorem comes_skip (k : BString) (w : List BString) : ∃ m',
    Comes urlProgram (.optional (.character (some k) none) none) w false true m' (skip k w) [] := by
  unfold skip
  by_cases h : w.head? = some k
  · have hchar := Comes.character (P := urlProgram) k w.tail
    rw [← head?_eq_some h] at hchar
    rw [if_pos h]
    exact ⟨_, hchar.optional⟩
  · rw [if_neg h]
    exact ⟨_, (Comes.character_ne (P := urlProgram) h).optional⟩

/-- The option of a value, which is set to the characters there are. -/
theorem comes_value (w : List BString) : ∃ m' calls,
    Comes urlProgram (.optional (captured (many (noneOf valueCharacters)) .value) none)
      w false true m'
      (w.dropWhile (others valueCharacters)) calls ∧
    ∀ key, calls.foldlM (fun self call => urlProgram.onsuccess call.1 call.2 self)
      (.keyValuePair key []) =
      .ok (.keyValuePair key (w.takeWhile (others valueCharacters)).flatten) := by
  by_cases h0 : w.takeWhile (others valueCharacters) = []
  · obtain ⟨k, hk⟩ := comes_captured_none (P := urlProgram) (class_noneOf valueCharacters) h0 .value
    rw [h0, dropWhile_of_takeWhile_nil h0]
    exact ⟨_, _, hk.optional, fun _ => rfl⟩
  · obtain ⟨m', k, hk⟩ := comes_captured (P := urlProgram) (class_noneOf valueCharacters) h0 .value
    exact ⟨_, _, hk.optional, fun _ => rfl⟩

theorem comes_keyValuePair (h0 : w.takeWhile (others keyCharacters) ≠ []) : ∃ m',
    Comes urlProgram keyValuePair w false true
      (.object (.keyValuePair (w.takeWhile (others keyCharacters)).flatten (valueOf w)) m'
        (some true)) (afterPair w) [] := by
  obtain ⟨_, k, hkey⟩ := comes_captured (P := urlProgram) (class_noneOf keyCharacters) h0 .key
  obtain ⟨e, heq⟩ := comes_skip (text "=") (w.dropWhile (others keyCharacters))
  obtain ⟨v, calls, hvalue, hcalls⟩ :=
    comes_value (skip (text "=") (w.dropWhile (others keyCharacters)))
  obtain ⟨a, hand⟩ :=
    comes_skip (text "&") ((skip (text "=") (w.dropWhile (others keyCharacters))).dropWhile
    (others valueCharacters))
  obtain ⟨i, hpair⟩ :=
    Sequence.comes (.cons (List.cons_ne_nil _ _) hkey (Sequence.cons (List.cons_ne_nil _ _) heq
    (Sequence.cons (List.cons_ne_nil _ _) hvalue (Sequence.last hand))))
  refine ⟨_, hpair.object (fun _ => rfl) rfl ?_⟩
  rw [List.nil_append, List.append_nil, List.foldlM_append]
  exact hcalls _

theorem comes_keyValuePair_none (h0 : w.takeWhile (others keyCharacters) = []) : ∃ m',
    Comes urlProgram keyValuePair w false false m' w [] := by
  obtain ⟨k, hkey⟩ := comes_captured_none (P := urlProgram) (class_noneOf keyCharacters) h0 .key
  obtain ⟨i, hpair⟩ := Sequence.comes (.failed [.optional (.character (some (text "=")) none) none,
    .optional (captured (many (noneOf valueCharacters)) .value) none,
      .optional (.character (some (text "&")) none) none] hkey)
  exact ⟨_, hpair.object (fun _ => rfl) rfl rfl⟩

/-- The pairs, one after another, with what they call. -/
theorem comes_pairs (w : List BString) (n : ℕ) : ∃ s k calls,
    Comes urlProgram (.repeated (.invoke .matchedItem keyValuePair none)
      (some (.invoke .matchedItem keyValuePair none)) 1 0 n none) w s
      (decide (1 ≤ n ∨ w.takeWhile (others keyCharacters) ≠ [])) k (keyValues w).2 calls ∧
    (w.takeWhile (others keyCharacters) = [] → calls = []) ∧
    ∀ items, calls.foldlM (fun self call => urlProgram.onsuccess call.1 call.2 self)
      (.keyValues items) =
      .ok (.keyValues
        ((keyValues w).1.foldl (fun items pair => URLObject.matchedItem pair.1 pair.2 items)
          items)) := by
  by_cases h0 : w.takeWhile (others keyCharacters) = []
  · obtain ⟨m', hpair⟩ := comes_keyValuePair_none h0
    obtain ⟨s, k, hstop⟩ := Comes.repeated_stop (n := n) rfl (hpair.invoke (f := .matchedItem) rfl)
    rw [keyValues_none h0]
    refine ⟨s, k, _, ?_, fun _ => rfl, fun _ => rfl⟩
    simpa [h0] using hstop
  · obtain ⟨m', hpair⟩ := comes_keyValuePair h0
    have hlt := length_afterPair_lt h0
    obtain ⟨s, k, calls, hrest, hnil, hcalls⟩ := comes_pairs (afterPair w) (n + 1)
    rw [decide_eq_true (Or.inl (Nat.le_add_left 1 n))] at hrest
    have hend : afterPair w = [] → (keyValues (afterPair w)).2 = [] ∧ calls = [] := by
      intro hafter
      refine ⟨?_, hnil (by rw [hafter]; rfl)⟩
      rw [hafter, keyValues_none rfl]
    obtain ⟨s', k', hitem⟩ := Comes.repeated_item rfl (hpair.invoke (f := .matchedItem) rfl)
      ⟨s, k, hrest⟩ hend (Nat.le_add_left 1 n)
    rw [keyValues_cons h0, decide_eq_true (Or.inr h0)]
    exact ⟨s', k', _, hitem, fun h => absurd h h0, fun items => hcalls _⟩
termination_by w.length

theorem comes_keyValues (w : List BString) : ∃ s k r,
    Comes urlProgram URLGrammar.keyValues w s r (.object (.keyValues (itemsOf (keyValues w).1)) k
      (some r)) (keyValues w).2 [] := by
  cases w with
  | nil =>
    have hend : Comes urlProgram (many (.invoke .matchedItem keyValuePair none)) [] false false _ []
      ([] ++ []) :=
      .ended (.ended rfl) .repeated_none rfl
    rw [keyValues_none (w := []) rfl]
    exact ⟨false, _, _, hend.object (fun _ => rfl) rfl rfl⟩
  | cons c w =>
    obtain ⟨s, k, calls, hpairs, -, hcalls⟩ := comes_pairs (c :: w) 0
    exact ⟨s, k, _, hpairs.repeated_start.object (fun _ => rfl) rfl (hcalls _)⟩

theorem keyValues_suffix (w : List BString) : (keyValues w).2 <:+ w := by
  obtain ⟨s, k, r, hread⟩ := comes_keyValues w
  exact hread.rest_suffix

/-- The option of a search. -/
theorem comes_search (w : List BString) : ∃ m x k b i r c s,
    Comes urlProgram (.optional search none) w false true
      (.optional
        (.capture (fun _ => true) (searchOf w).1
          (.and [x, .object (.keyValues (itemsOf (searchOf w).2)) k b] i r) c) s) m [] := by
  unfold searchOf
  by_cases h : w.head? = some (text "?")
  · obtain ⟨_, k, r, hpairs⟩ := comes_keyValues w.tail
    have hchar := Comes.character (P := urlProgram) (text "?") w.tail
    rw [← head?_eq_some h] at hchar
    obtain ⟨i, hand⟩ := Sequence.comes (.cons (List.cons_ne_nil _ _) hchar (Sequence.last hpairs))
    have hbefore := textBefore_cons (text "?") (keyValues_suffix w.tail)
    rw [← head?_eq_some h] at hbefore
    have hcapture := hand.capture (v := []) rfl
    rw [hbefore] at hcapture
    rw [if_pos h]
    exact ⟨_, _, _, _, _, _, _, _, hcapture.optional⟩
  · obtain ⟨i, hand⟩ :=
      Sequence.comes (.failed [URLGrammar.keyValues] (Comes.character_ne (P := urlProgram) h))
    have hcapture := hand.capture (v := []) rfl
    have hbefore : textBefore w w = [] := by
      rw [textBefore, Nat.sub_self, List.take_zero, List.flatten_nil]
    rw [hbefore] at hcapture
    rw [if_neg h]
    exact ⟨_, _, _, _, _, _, _, _, hcapture.optional⟩

/-! ### The whole text -/

/-- A URL comes to its parts, whatever the text is. -/
theorem comes_url (h : Legible lower w) :
    ∃ m rest, Comes urlProgram (url lower) w false true m rest [] ∧
    URLMatch.parts m = some (read lower w) := by
  obtain ⟨_, p, _, _, _, _, d, _, t, _, _, _, _, _, horigin, hb, hp, hd, ht⟩ :=
    comes_origin (P := urlProgram) h
  obtain ⟨m', hpath⟩ := comes_capture (P := urlProgram) (class_noneOf pathCharacters)
    (domainOf (scheme lower w).2).2.2
  obtain ⟨rest, _, _, _, _, _, _, _, hsearch⟩ :=
    comes_search ((domainOf (scheme lower w).2).2.2.dropWhile (others pathCharacters))
  obtain ⟨i, hand⟩ := Sequence.comes (.cons (List.cons_ne_nil _ _) horigin
    (Sequence.cons (List.cons_ne_nil _ _) hpath.optional (Sequence.last hsearch)))
  refine ⟨_, rest, hand.object (fun _ => rfl) rfl rfl, ?_⟩
  subst hb
  simp [URLMatch.parts, read, Match.result, Match.value, hp, hd, ht]

end

end URLText

/-! ### The characters of a text -/

namespace Parser

open BString

/-- A character that the parser puts together whatever comes after it. -/
def IsWhole (c : BString) : Prop :=
  ∃ b t, c = b :: t ∧ ∀ rest, readPart (expectedBytes b) [b] (t ++ rest) = (0, b :: t)

theorem readPart_whole : ∀ {s part part' : BString} {expected : ℕ},
    readPart expected part s = (0, part') →
    ∃ t, part' = part ++ t ∧ t <+: s ∧ ∀ rest, readPart expected part (t ++ rest) = (0, part')
  | [], part, part', expected, h => by
    obtain ⟨he, rfl⟩ := Prod.mk.inj h
    refine ⟨[], (List.append_nil _).symm, List.nil_prefix, fun rest => ?_⟩
    cases rest <;> simp [readPart, he]
  | c :: s, part, part', expected, h => by
    rw [readPart] at h
    by_cases he : expected - 1 = 0
    · simp only [he, if_true] at h
      obtain ⟨-, rfl⟩ := Prod.mk.inj h
      refine ⟨[], (List.append_nil _).symm, List.nil_prefix, fun rest => ?_⟩
      cases rest <;> simp [readPart, he]
    · simp only [he, if_false] at h
      obtain ⟨t, rfl, hs, hrest⟩ := readPart_whole h
      refine ⟨c :: t, by simp, List.cons_prefix_cons.mpr ⟨rfl, hs⟩, fun rest => ?_⟩
      rw [List.cons_append, readPart]
      simp only [he, if_false]
      exact hrest rest

theorem expectedBytes_ascii {b : UInt8} (h : b < 128) : expectedBytes b = 0 := by
  have hall : ∀ n : Fin 128, expectedBytes (UInt8.ofNat n) = 0 := by decide +kernel
  simpa using hall ⟨b.toNat, h⟩

theorem isWhole_ascii {b : UInt8} (h : b < 128) : IsWhole [b] :=
  ⟨b, [], rfl, fun rest => by rw [expectedBytes_ascii h, List.nil_append]; cases rest <;> rfl⟩

/-- A character of a text is whole, and one byte where it starts with ASCII. -/
theorem isWhole_of_mem {c : BString} : ∀ {s : BString}, c ∈ characters s → IsWhole c ∧ ∃ b t,
    c = b :: t ∧ (t = [] ∨ 128 ≤ b)
  | [], h => by
    rw [characters] at h
    cases h
  | b :: s, h => by
    rw [characters] at h
    cases hpart : readPart (expectedBytes b) [b] s with
    | mk expected character =>
      simp only [hpart] at h
      split_ifs at h with he
      · subst he
        obtain ⟨t, rfl, hs, hrest⟩ := readPart_whole hpart
        rcases List.mem_cons.mp h with rfl | h
        · refine ⟨⟨b, t, rfl, hrest⟩, b, t, rfl, ?_⟩
          by_contra hne
          obtain ⟨ht, hb⟩ := not_or.mp hne
          have hascii := hrest []
          rw [expectedBytes_ascii (UInt8.not_le.mp hb)] at hascii
          obtain ⟨d, t, rfl⟩ := List.exists_cons_of_ne_nil ht
          simp [readPart] at hascii
        · exact isWhole_of_mem h
      · cases h
termination_by s => s.length
decreasing_by simp only [List.length_drop, List.length_cons]; omega

theorem characters_whole {c : BString} (h : IsWhole c) (s : BString) :
    characters (c ++ s) = c :: characters s := by
  obtain ⟨b, t, rfl, hrest⟩ := h
  rw [List.cons_append, characters, hrest]
  simp

theorem characters_append {cs : List BString} (h : ∀ c ∈ cs, IsWhole c) (s : BString) :
    characters (cs.flatten ++ s) = cs ++ characters s := by
  induction cs with
  | nil => rfl
  | cons c cs ih =>
    rw [List.flatten_cons, List.append_assoc, characters_whole (h c List.mem_cons_self),
      ih fun d hd => h d (List.mem_cons_of_mem c hd),
      List.cons_append]

theorem characters_of_whole {cs : List BString} (h : ∀ c ∈ cs, IsWhole c) :
    characters cs.flatten = cs := by
  have happend := characters_append h []
  rwa [List.append_nil, Parser.characters_nil, List.append_nil] at happend

end Parser

/-! ### The lower case -/

/-- A letter of ASCII in lower case. -/
def lowerByte (c : UInt8) : UInt8 := if 65 ≤ c ∧ c ≤ 90 then c + 32 else c

/-- `BString::toLower`: what it does with ASCII, and that no other character
becomes a letter of a protocol. -/
structure Lowers (lower : BString → BString) : Prop where
  ascii : ∀ s : BString, (∀ b ∈ s, b < 128) → lower s = s.map lowerByte
  other : ∀ (b : UInt8) (t : BString), 128 ≤ b → ∃ b' t', lower (b :: t) = b' :: t' ∧
    b' ∉ text "https"

theorem lowers_map : Lowers (List.map lowerByte) where
  ascii _ _ := rfl
  other b t hb := by
    have hall : ∀ n : Fin 256, 128 ≤ n.val → lowerByte (UInt8.ofNat n) ∉ text "https" := by
      decide +kernel
    exact ⟨lowerByte b, t.map lowerByte, rfl, by simpa using hall ⟨b.toNat, b.toNat_lt⟩ hb⟩

namespace URLText

variable {lower : BString → BString}

theorem legible_characters (h : Lowers lower) (s : BString) :
    Legible lower (Parser.characters s) where
  https := by rw [h.ascii _ (BString.forall_of_all (by decide))]; decide
  http := by rw [h.ascii _ (BString.forall_of_all (by decide))]; decide
  letters c hc := by
    obtain ⟨-, b, t, rfl, ht⟩ := Parser.isWhole_of_mem hc
    by_cases hb : 128 ≤ b
    · obtain ⟨b', t', heq, hb'⟩ := h.other b t hb
      exact ⟨b', t', heq, Or.inr hb'⟩
    · obtain rfl := ht.resolve_right hb
      exact ⟨lowerByte b, [], h.ascii [b] (by simpa using UInt8.not_le.mp hb), Or.inl rfl⟩
  marks c hc := by
    obtain ⟨-, b, t, rfl, ht⟩ := Parser.isWhole_of_mem hc
    refine ⟨b, t, rfl, ht.imp_right fun hb hmem => ?_⟩
    have hall : ∀ b ∈ text "://", ¬ (128 : UInt8) ≤ b := BString.forall_of_all (by decide)
    exact hall b hmem hb

/-- **A URL is read as its parts**, from every text. -/
theorem parse_eq (h : Lowers lower) (s : BString) : ∃ n, ∀ fuel, n ≤ fuel →
    URLParts.parse lower fuel s = .ok (read lower (Parser.characters s)) := by
  obtain ⟨m, rest, hcomes, hparts⟩ := comes_url (legible_characters h s)
  obtain ⟨n, hn⟩ := Parser.eof_of_comes hcomes
  refine ⟨n, fun fuel hf => ?_⟩
  unfold URLParts.parse
  obtain ⟨parser, hread, heof⟩ := Run.bind_eq_ok.mp (hn fuel hf)
  rw [hread, Run.ok_bind, heof, Run.ok_bind]
  simp [hparts]

/-- What holds of the URL holds of the parts that are read. -/
theorem parse_iff (h : Lowers lower) (s : BString) (Q : URLParts → Prop) :
    (∃ n, ∀ fuel, n ≤ fuel → ∃ url, URLParts.parse lower fuel s = .ok url ∧ Q url) ↔ Q
    (read lower (Parser.characters s)) := by
  obtain ⟨n, hn⟩ := parse_eq h s
  constructor
  · rintro ⟨n', h⟩
    obtain ⟨url, hurl, hQ⟩ := h (max n n') (le_max_right n n')
    rw [hn _ (le_max_left n n')] at hurl
    rwa [Run.ok_inj.mp hurl]
  · exact fun h => ⟨n, fun fuel hf => ⟨_, hn fuel hf, h⟩⟩

end URLText

end BeeFish
