/-
# UTF-8

A character is a leading byte, which says how many bytes it has, and that many
less one tail bytes. Bytes can be put together to characters one by one
(`split`): a character is complete when it has as many bytes as its first one
says, so the characters of a text come out again, and the bytes before a place
in a text give the characters before it and the part of one (`split_flatten`,
`split_isPrefix`).

Key definitions: `Utf8.IsChar`, `Utf8.split`.
-/
import Mathlib.Data.List.Basic
import Mathlib.Tactic.Common

namespace Utf8

abbrev Bytes := List UInt8

/-- How many bytes the character of a leading byte has; zero if none starts
with it. -/
def width (lead : UInt8) : ℕ :=
  if lead < 0x80 then 1
  else if 0xC2 ≤ lead ∧ lead ≤ 0xDF then 2
  else if 0xE0 ≤ lead ∧ lead ≤ 0xEF then 3
  else if 0xF0 ≤ lead ∧ lead ≤ 0xF4 then 4
  else 0

def IsTail (b : UInt8) : Prop := 0x80 ≤ b ∧ b ≤ 0xBF

instance (b : UInt8) : Decidable (IsTail b) := inferInstanceAs (Decidable (_ ∧ _))

/-- The code point of a character. -/
def codepoint : Bytes → ℕ
  | [a] => a.toNat
  | [a, b] => a.toNat % 32 * 64 + b.toNat % 64
  | [a, b, c] => a.toNat % 16 * 4096 + b.toNat % 64 * 64 + c.toNat % 64
  | [a, b, c, d] => a.toNat % 8 * 262144 + b.toNat % 64 * 4096 + c.toNat % 64 * 64 + d.toNat % 64
  | _ => 0

/-- The code point is one that is written with so many bytes. -/
def ofWidth (n p : ℕ) : Prop :=
  (n = 3 → 0x800 ≤ p ∧ (p < 0xD800 ∨ 0xDFFF < p)) ∧ (n = 4 → 0x10000 ≤ p ∧ p ≤ 0x10FFFF)

instance (n p : ℕ) : Decidable (ofWidth n p) := inferInstanceAs (Decidable (_ ∧ _))

/-- A character: a leading byte with its tail. -/
structure IsChar (c : Bytes) : Prop where
  ne_nil : c ≠ []
  width : c.length = Utf8.width (c.head ne_nil)
  tail : ∀ b ∈ c.tail, IsTail b
  codepoint : ofWidth c.length (Utf8.codepoint c)

/-- A byte of ASCII is a character. -/
theorem isChar_ascii {b : UInt8} (h : b < 0x80) : IsChar [b] :=
  ⟨List.cons_ne_nil _ _, by simp [Utf8.width, h], nofun, by simp [ofWidth]⟩

/-- A character is a byte of ASCII or has more bytes and none of ASCII. -/
theorem IsChar.ascii_or {c : Bytes} (h : IsChar c) : (∃ b, b < 0x80 ∧ c = [b]) ∨
    (2 ≤ c.length ∧ ∀ b ∈ c, 0x80 ≤ b) := by
  obtain ⟨hne, hwidth, htail, -⟩ := h
  obtain ⟨b, rest, rfl⟩ := List.exists_cons_of_ne_nil hne
  by_cases hb : b < 0x80
  · have hnil : rest = [] := by simpa [Utf8.width, hb] using hwidth
    exact Or.inl ⟨b, hb, by rw [hnil]⟩
  · refine Or.inr ⟨?_, fun k hk => ?_⟩
    · have hpos := List.length_pos_iff.mpr hne
      rw [List.head_cons, Utf8.width, if_neg hb] at hwidth
      split_ifs at hwidth <;> omega
    · rcases List.mem_cons.mp hk with rfl | hk
      · exact UInt8.not_lt.mp hb
      · exact (htail k hk).1

/-- The first character of a text is the one it starts with. -/
theorem IsChar.eq_of_isPrefix {c d rest : Bytes} (hc : IsChar c) (hd : IsChar d)
    (h : c <+: d ++ rest) : c = d := by
  obtain ⟨b, c, rfl⟩ := List.exists_cons_of_ne_nil hc.ne_nil
  obtain ⟨b', d, rfl⟩ := List.exists_cons_of_ne_nil hd.ne_nil
  have hb : b = b' := (List.cons_prefix_cons.mp h).1
  have hlen : (b :: c).length = (b' :: d).length := by
    rw [hc.width, hd.width, List.head_cons, List.head_cons, hb]
  rw [List.prefix_iff_eq_take.mp h, hlen, List.take_left]

/-- A text is a list of characters. -/
def IsText (cs : List Bytes) : Prop := ∀ c ∈ cs, IsChar c

/-- The bytes of a text. -/
def IsUtf8 (s : Bytes) : Prop := ∃ cs, IsText cs ∧ cs.flatten = s

theorem isUtf8_ascii {s : Bytes} (h : ∀ b ∈ s, b < 0x80) : IsUtf8 s := by
  refine ⟨s.map ([·]), fun c hc => ?_, by simp [← List.flatMap_def]⟩
  obtain ⟨b, hb, rfl⟩ := List.mem_map.mp hc
  exact isChar_ascii (h b hb)

/-! ### Putting characters together -/

/-- One byte put to the part of a character. -/
def feed (s : List Bytes × Bytes) (b : UInt8) : List Bytes × Bytes :=
  let part := s.2 ++ [b]
  if part.length = (part.head?.map width).getD 0 then (s.1 ++ [part], []) else (s.1, part)

/-- The characters of some bytes and the part of one after them. -/
def split (bytes : Bytes) : List Bytes × Bytes := bytes.foldl feed ([], [])

theorem split_append (a b : Bytes) : split (a ++ b) = b.foldl feed (split a) := List.foldl_append

variable {c part : Bytes} {done : List Bytes}

/-- The first bytes of a character wait for the rest. -/
theorem foldl_feed_part (hc : IsChar c) : ∀ {v : Bytes} (part : Bytes), part ++ v <+: c →
    part ++ v ≠ c →
    v.foldl feed (done, part) = (done, part ++ v)
  | [], part, _, _ => by simp
  | b :: v, part, hp, hne => by
    have hw : (part ++ [b]) ++ v <+: c := by simpa using hp
    have hne' : (part ++ [b]) ++ v ≠ c := by simpa using hne
    have hlt : (part ++ [b]).length < c.length := by
      have h1 := hw.length_le
      rcases Nat.lt_or_ge ((part ++ [b]).length) c.length with h | h
      · exact h
      · have h2 : ((part ++ [b]) ++ v).length = c.length := by
          simp only [List.length_append] at h1 h ⊢
          omega
        exact absurd (hw.eq_of_length h2) hne'
    have hhead : (part ++ [b]).head? = c.head? := by
      obtain ⟨r, hr⟩ := (List.prefix_append (part ++ [b]) v).trans hw
      rw [← hr]
      cases part <;> rfl
    have hwidth : ((part ++ [b]).head?.map width).getD 0 = c.length := by
      rw [hhead, List.head?_eq_some_head hc.ne_nil, hc.width]
      rfl
    rw [List.foldl_cons, feed]
    simp only
    rw [hwidth, if_neg (Nat.ne_of_lt hlt), foldl_feed_part hc (part ++ [b]) hw hne']
    simp

theorem foldl_feed_char (hc : IsChar c) : c.foldl feed (done, []) = (done ++ [c], []) := by
  obtain ⟨v, b, rfl⟩ : ∃ v b, c = v ++ [b] := by
    obtain ⟨v, b, h⟩ := (List.eq_nil_or_concat c).resolve_left hc.ne_nil
    exact ⟨v, b, by rw [h, List.concat_eq_append]⟩
  have hv : v.foldl feed (done, []) = (done, v) := by
    simpa using foldl_feed_part hc [] (List.prefix_append v [b]) (by simp)
  have hwidth : ((v ++ [b]).head?.map width).getD 0 = (v ++ [b]).length := by
    rw [List.head?_eq_some_head hc.ne_nil, hc.width]
    rfl
  rw [List.foldl_append, hv]
  show feed (done, v) b = _
  simp only [feed]
  rw [hwidth, if_pos rfl]

theorem foldl_feed_text : ∀ {cs done : List Bytes},
    IsText cs → cs.flatten.foldl feed (done, []) = (done ++ cs, [])
  | [], done, _ => by simp
  | c :: cs, done, h => by
    rw [List.flatten_cons, List.foldl_append, foldl_feed_char (h c List.mem_cons_self),
      foldl_feed_text fun k hk => h k (List.mem_cons_of_mem _ hk)]
    simp

theorem split_flatten {cs : List Bytes} (h : IsText cs) : split cs.flatten = (cs, []) :=
  foldl_feed_text h

/-- The bytes are none, or the beginning of the first character. -/
inductive Begins : List Bytes → Bytes → Prop
  | nil (cs : List Bytes) : Begins cs []
  | part {c part : Bytes} (cs : List Bytes) (hp : part <+: c) (hne : part ≠ c) (h0 : part ≠ []) :
      Begins (c :: cs) part

/-- What is only the beginning of a text is nothing. -/
theorem Begins.eq_nil {cs : List Bytes} (hb : Begins cs part) (h : IsText cs)
    (heq : cs.flatten = part) :
    cs = [] ∧ part = [] := by
  cases hb with
  | nil =>
    cases cs with
    | nil => exact ⟨rfl, rfl⟩
    | cons c cs =>
      rw [List.flatten_cons] at heq
      exact absurd (List.append_eq_nil_iff.mp heq).1 (h c List.mem_cons_self).ne_nil
  | part cs hp hne _ =>
    rw [List.flatten_cons] at heq
    refine absurd (hp.eq_of_length_le ?_) hne
    rw [← heq, List.length_append]
    exact Nat.le_add_right _ _

theorem foldl_feed_begins {cs : List Bytes} (h : IsText cs) (hb : Begins cs part) :
    part.foldl feed (done, []) = (done, part) := by
  cases hb with
  | nil => rfl
  | part cs hp hne _ =>
    simpa using foldl_feed_part (h _ List.mem_cons_self) [] (v := part) (by simpa) (by simpa)

/-- The first bytes of a text are some of its characters and the beginning of
the next. -/
theorem split_isPrefix : ∀ {cs : List Bytes} {b : Bytes}, IsText cs → b <+: cs.flatten →
    ∃ pre post part, cs = pre ++ post ∧ b = pre.flatten ++ part ∧ Begins post part ∧
      ∀ done, b.foldl feed (done, []) = (done ++ pre, part)
  | [], b, _, hb => by
    obtain rfl := List.prefix_nil.mp hb
    exact ⟨[], [], [], rfl, rfl, .nil _, fun done => by simp⟩
  | c :: cs, b, h, hb => by
    have hc := h c List.mem_cons_self
    rw [List.flatten_cons] at hb
    rcases List.prefix_or_prefix_of_prefix hb (List.prefix_append c cs.flatten) with hbc | hcb
    · by_cases hne : b = c
      · subst hne
        exact ⟨[b], cs, [], rfl, by simp, .nil _, fun done => foldl_feed_char hc⟩
      · by_cases h0 : b = []
        · subst h0
          exact ⟨[], c :: cs, [], rfl, rfl, .nil _, fun done => by simp⟩
        · refine ⟨[], c :: cs, b, rfl, rfl, .part cs hbc hne h0, fun done => ?_⟩
          rw [foldl_feed_begins h (.part cs hbc hne h0), List.append_nil]
    · obtain ⟨v, rfl⟩ := hcb
      rw [List.prefix_append_right_inj] at hb
      obtain ⟨pre, post, part, rfl, rfl, hbeg, hfold⟩ :=
        split_isPrefix (fun k hk => h k (List.mem_cons_of_mem _ hk)) hb
      refine ⟨c :: pre, post, part, rfl, by simp, hbeg, fun done => ?_⟩
      rw [List.foldl_append, foldl_feed_char hc, hfold]
      simp

end Utf8
