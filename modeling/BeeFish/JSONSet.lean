/-
# The sets of a JSON text

What a `Set` (json/set.h) comes to with its items, of which each may be missing
between two commas and may have blank space on both sides. An item that fails is
passed over, and the brace has to come at the character where it failed. So the
set takes the comma before a missing last item, and no other comma without an
item after it (`set_comes`).

Key definitions: `heard`, `Piece`, `Piece.Holds`, `run`.
-/
import BeeFish.JSONMarks

namespace BeeFish

/-- The value of a `String` that has read these characters. -/
def JSONString.value (pageSize : ℕ+) (s : BString) : BString :=
  (JSONGrammar.fieldsOf pageSize (Parser.characters s)).value

namespace JSONGrammar

open Match (Reads Comes Sequence)

open BeeFish.Parser (characters)

open BString (isDigit)

variable (pageSize : ℕ+)

/-- What the parser makes of some calls. -/
def heard (calls : List (JSONCall × JSONMatch)) (stack : List Variable) :
    Except ScriptFault (List Variable) :=
  calls.foldlM (fun stack call => ScriptParser.hear stack call.1 call.2) stack

theorem heard_append {calls calls' : List (JSONCall × JSONMatch)} {stack stack' : List Variable}
    (h : heard calls stack = .ok stack') :
    heard (calls ++ calls') stack = heard calls' stack' := by
  unfold heard at h ⊢
  rw [List.foldlM_append, h]
  rfl

/-- A byte that closes nothing. -/
def Blocks (d : UInt8) : Prop := d < 0x80 ∧ isBlank d = false ∧ d ≠ 93 ∧ d ≠ 125

/-- A text that starts with a byte of ASCII that is not blank. -/
def Starts (x : BString) : Prop := ∃ b x', x = b :: x' ∧ b < 0x80 ∧ isBlank b = false

theorem Starts.fresh {x : BString} (h : Starts x) (t : BString) : Fresh (x ++ t) := by
  obtain ⟨b, x', rfl, hb, hblank⟩ := h
  exact fresh_cons hb hblank _

theorem Starts.characters_ne_nil {x : BString} (h : Starts x) (t : BString) :
    ∃ c w, characters (x ++ t) = c :: w := by
  obtain ⟨b, x', rfl, hb, -⟩ := h
  exact ⟨_, _, characters_byte hb _⟩

/-- An item of a set: the blank space around it, its text, and what it makes of
what is collected; nothing where it is rejected. A missing item has no text. -/
structure Piece (α : Type) where
  before : BString
  after : BString
  content : Option (BString × Option (α → α))

section

variable {α : Type} (wrap : α → Variable)

/-- What comes of the stack: the collected goes on, or the text is rejected at
a byte that closes nothing, with more on the stack. -/
def Collects (close : UInt8) (t u : BString) (calls : List (JSONCall × JSONMatch)) :
    Option (α → α) → Prop
  | some g => u = close :: t ∧ ∀ a stack, heard calls (wrap a :: stack) = .ok (wrap (g a) :: stack)
  | none =>
    (∃ d t', u = d :: t' ∧ Blocks d) ∧ ∀ a stack, ∃ pushed,
      heard calls (wrap a :: stack) = .ok (pushed ++ stack)

/-- What comes of an item before `t`. -/
def Given (item : JSONMatch) (w : List BString) (t : BString) : Option (α → α) → Prop
  | some g => ∃ m calls, Comes (program pageSize) item w false true m (characters t) calls ∧
      ∀ a stack, heard calls (wrap a :: stack) = .ok (wrap (g a) :: stack)
  | none =>
    ∃ m d t' calls, Comes (program pageSize) item w false false m (characters (d :: t'))
      calls ∧ Blocks d ∧
      ∀ a stack, ∃ pushed, heard calls (wrap a :: stack) = .ok (pushed ++ stack)

namespace Piece

def text (p : Piece α) : BString := p.before ++ (p.content.elim [] Prod.fst ++ p.after)

structure Holds (item : JSONMatch) (p : Piece α) : Prop where
  before : ∀ b ∈ p.before, isBlank b = true
  after : ∀ b ∈ p.after, isBlank b = true
  starts : ∀ content ∈ p.content, Starts content.1
  given : ∀ content ∈ p.content, ∀ t, AfterNumber t →
    Given pageSize wrap item (characters (content.1 ++ t)) t content.2

end Piece

end

variable {α : Type}

/-- What follows an item. -/
def following (close : UInt8) (t : BString) : List (Piece α) → BString
  | [] => close :: t
  | p :: ps => 44 :: (p.text ++ following close t ps)

/-- What the pieces make of what is collected. -/
def run : List (Piece α) → Option (α → α)
  | [] => some id
  | p :: ps =>
    match p.content with
    | none => if ps.isEmpty then some id else none
    | some (_, none) => none
    | some (_, some g) => (run ps).map (· ∘ g)

variable {pageSize} {wrap : α → Variable} {item : JSONMatch} {close : UInt8} {t u x y : BString}
    {ps : List (Piece α)} {p : Piece α}
  {calls calls' : List (JSONCall × JSONMatch)} {o : Option (α → α)} {g : α → α}

theorem Collects.after (h : ∀ a stack, heard calls (wrap a :: stack) = .ok (wrap (g a) :: stack))
    (hnext : Collects wrap close t u calls' o) :
    Collects wrap close t u (calls ++ calls') (o.map (· ∘ g)) := by
  cases o with
  | none =>
    refine ⟨hnext.1, fun a stack => ?_⟩
    rw [heard_append (h a stack)]
    exact hnext.2 (g a) stack
  | some g' =>
    refine ⟨hnext.1, fun a stack => ?_⟩
    rw [heard_append (h a stack)]
    exact hnext.2 (g a) stack

theorem run_accepted (hp : p.content = some (x, some g)) :
    run (p :: ps) = (run ps).map (· ∘ g) := by
  rw [run, hp]

theorem run_rejected (hp : p.content = some (x, none)) : run (p :: ps) = none := by rw [run, hp]

theorem run_missing (hp : p.content = none) : run (p :: ps) = if ps.isEmpty then some id
    else none := by
  rw [run, hp]

/-- A brace. -/
structure Closes (close : UInt8) : Prop where
  ascii : close < 0x80
  blank : isBlank close = false
  comma : close ≠ 44
  brace : close = 93 ∨ close = 125

theorem blocks_comma : Blocks 44 := ⟨by decide, by decide, by decide, by decide⟩

theorem Closes.fresh (h : Closes close) : ∀ ps : List (Piece α), Fresh (following close t ps)
  | [] => fresh_cons h.ascii h.blank _
  | _ :: _ => fresh_cons (by decide) (by decide) _

theorem afterNumber_of_fresh (h : ∀ b ∈ y, isBlank b = true)
    (ht : ∀ b ∈ t.head?, b = 44 ∨ b = 93 ∨ b = 125) : AfterNumber (y ++ t) := by
  have hmark : ∀ b : UInt8, b = 44 ∨ b = 93 ∨ b = 125 → b < 0x80 ∧ isDigit b = false ∧
    b ∉ text ".eE" := by
    rintro b (rfl | rfl | rfl) <;> decide
  have hblank : ∀ b : UInt8, isBlank b = true → b < 0x80 ∧ isDigit b = false ∧ b ∉ text ".eE" := by
    intro b hb
    simp only [isBlank, blanks, decide_eq_true_iff, List.mem_cons, List.cons.injEq, and_true,
      List.not_mem_nil, or_false] at hb
    rcases hb with rfl | rfl | rfl | rfl | rfl | rfl <;> decide
  intro b hb
  cases y with
  | nil => exact hmark b (ht b hb)
  | cons d y =>
    obtain rfl := Option.some.inj hb
    exact hblank d (h d List.mem_cons_self)

theorem Closes.following_head (h : Closes close) : ∀ ps : List (Piece α),
    ∀ b ∈ (following close t ps).head?, b = 44 ∨ b = 93 ∨ b = 125
  | [], b, hb => by
    obtain rfl := Option.some.inj hb
    exact Or.inr h.brace
  | _ :: _, b, hb => by
    obtain rfl := Option.some.inj hb
    exact Or.inl rfl

theorem following_ne_nil (close : UInt8) (t : BString) (ps : List (Piece α)) :
    ∃ d u, following close t ps = d :: u ∧ (d = 44 ∨ d = close) := by
  cases ps with
  | nil => exact ⟨_, _, rfl, Or.inr rfl⟩
  | cons p ps => exact ⟨_, _, rfl, Or.inl rfl⟩

theorem Closes.characters_ne_nil (h : Closes close) (hy : ∀ b ∈ y, isBlank b = true)
    (ps : List (Piece α)) :
    characters (y ++ following close t ps) ≠ [] := by
  cases y with
  | nil =>
    obtain ⟨d, u, hu, hd⟩ := following_ne_nil close t ps
    have hascii : d < 0x80 := by
      rcases hd with rfl | rfl
      · decide
      · exact h.ascii
    rw [List.nil_append, hu, characters_byte hascii]
    exact List.cons_ne_nil _ _
  | cons b y =>
    rw [List.cons_append, characters_byte (isBlank_ascii (hy b List.mem_cons_self))]
    exact List.cons_ne_nil _ _

variable (pageSize) (item) (close) in
/-- The item does not start with a comma or the brace. -/
def RefusesMarks : Prop :=
  ∀ d t, d = 44 ∨ d = close → ∃ m, Comes (program pageSize) item (characters (d :: t)) false false m
    (characters (d :: t)) []

variable {onset : JSONCall}

/-- A missing item after a comma. -/
theorem subsequentItem_missing (hclose : Closes close)
    (hrefuse : RefusesMarks pageSize (.invoke onset item none) close)
    (hy : ∀ b ∈ y, isBlank b = true) (hx : ∀ b ∈ x, isBlank b = true) (ps : List (Piece α)) : ∃ m,
      Comes (program pageSize) (subsequentItem item (mark 44) onset)
        (characters (y ++ 44 :: (x ++ following close t ps))) false false m
        (characters (following close t ps)) [] := by
  obtain ⟨_, hcomma⟩ := seperator_comes pageSize hy hx (hclose.fresh (t := t) ps)
  obtain ⟨d, u, hu, hd⟩ := following_ne_nil close t ps
  obtain ⟨_, hitem⟩ := hrefuse d u hd
  rw [← hu] at hitem
  obtain ⟨_, hseq⟩ := (Sequence.cons (List.cons_ne_nil _ _) hcomma (.last hitem)).comes
  exact ⟨_, hseq⟩

/-- An item after a comma comes to what it comes to. -/
theorem subsequentItem_comes {r : Bool} {m : JSONMatch} {before : BString}
    (hy : ∀ b ∈ y, isBlank b = true)
    (hbefore : ∀ b ∈ before, isBlank b = true) (hx : Starts x)
    (h : Comes (program pageSize) (.invoke onset item none) (characters (x ++ t)) false r m
      (characters u) calls) : ∃ k,
      Comes (program pageSize) (subsequentItem item (mark 44) onset)
        (characters (y ++ 44 :: (before ++ (x ++ t)))) false r k (characters u)
        calls := by
  obtain ⟨_, hcomma⟩ := seperator_comes pageSize hy hbefore (hx.fresh t)
  obtain ⟨_, hseq⟩ := (Sequence.cons (List.cons_ne_nil _ _) hcomma (.last h)).comes
  exact ⟨_, hseq⟩

variable (pageSize) (item) (onset) in
/-- No comma. -/
theorem subsequentItem_fails (hy : ∀ b ∈ y, isBlank b = true) (ht : Fresh t)
    (h : t.head? ≠ some 44) : ∃ k,
    Comes (program pageSize) (subsequentItem item (mark 44) onset) (characters (y ++ t))
      false false k (characters t) [] := by
  obtain ⟨_, hcomma⟩ := seperator_fails pageSize hy ht h
  have hseq : Sequence (program pageSize) [] [setSeperator (mark 44), .invoke onset item none]
    (characters (y ++ t)) false _
      (characters t) [] := .failed _ hcomma
  obtain ⟨_, hseq⟩ := hseq.comes
  exact ⟨_, hseq⟩

theorem Piece.following_text (p : Piece α) (close : UInt8) (t : BString) (ps : List (Piece α))
    {x : BString} {o : Option (α → α)}
    (hp : p.content = some (x, o)) :
    p.text ++ following close t ps = p.before ++ (x ++ (p.after ++ following close t ps)) := by
  simp [Piece.text, hp]

theorem Piece.following_missing (p : Piece α) (close : UInt8) (t : BString) (ps : List (Piece α))
    (hp : p.content = none) :
    p.text ++ following close t ps = (p.before ++ p.after) ++ following close t ps := by
  simp [Piece.text, hp]

/-- What follows an item: more items, as far as they are taken. -/
theorem subsequentItems_comes (hclose : Closes close)
    (hrefuse : RefusesMarks pageSize (.invoke onset item none) close) :
    ∀ (ps : List (Piece α)) (y : BString) (n : ℕ), (∀ b ∈ y, isBlank b = true) →
      (∀ p ∈ ps, p.Holds pageSize wrap (.invoke onset item none)) →
      ∃ u calls, Collects wrap close t u calls (run ps) ∧ ∃ s m, Comes (program pageSize)
        (.repeated (subsequentItem item (mark 44) onset)
          (some (subsequentItem item (mark 44) onset)) 0 0 n none)
        (characters (y ++ following close t ps)) s true m (characters u) calls
  | [], y, n, hy, _ => by
    obtain ⟨_, hitem⟩ := subsequentItem_fails pageSize item onset hy
      (fresh_cons hclose.ascii hclose.blank t)
      fun heq => hclose.comma (Option.some.inj heq)
    exact ⟨close :: t, [], ⟨rfl, fun _ _ => rfl⟩, hitem.repeated_stop rfl⟩
  | p :: ps, y, n, hy, h => by
    have hp := h p List.mem_cons_self
    cases hcontent : p.content with
    | none =>
      have hblank : ∀ b ∈ p.before ++ p.after, isBlank b = true :=
        fun b hb => (List.mem_append.mp hb).elim (hp.before b) (hp.after b)
      obtain ⟨_, hitem⟩ := subsequentItem_missing (t := t) hclose hrefuse hy hblank ps
      rw [following, p.following_missing close t ps hcontent, run_missing hcontent]
      refine ⟨following close t ps, [], ?_, hitem.repeated_stop rfl⟩
      cases ps with
      | nil => exact ⟨rfl, fun _ _ => rfl⟩
      | cons q ps => exact ⟨⟨44, _, rfl, blocks_comma⟩, fun a stack => ⟨[wrap a], rfl⟩⟩
    | some content =>
      obtain ⟨x, o⟩ := content
      have hstarts := hp.starts _ hcontent
      have hgiven := hp.given _ hcontent
      have hafter : AfterNumber (p.after ++ following close t ps) :=
        afterNumber_of_fresh hp.after (hclose.following_head ps)
      rw [following, p.following_text close t ps hcontent]
      cases o with
      | none =>
        obtain ⟨_, d, t', calls, hcomes, hd, hheard⟩ := hgiven _ hafter
        obtain ⟨_, hitem⟩ := subsequentItem_comes hy hp.before hstarts hcomes
        rw [run_rejected hcontent]
        exact ⟨d :: t', calls, ⟨⟨d, t', rfl, hd⟩, hheard⟩, hitem.repeated_stop rfl⟩
      | some g =>
        obtain ⟨_, calls, hcomes, hheard⟩ := hgiven _ hafter
        obtain ⟨_, hitem⟩ := subsequentItem_comes hy hp.before hstarts hcomes
        obtain ⟨u, calls', hcollects, hnext⟩ :=
          subsequentItems_comes hclose hrefuse ps p.after (n + 1) hp.after fun q hq =>
            h q (List.mem_cons_of_mem p hq)
        rw [run_accepted hcontent]
        refine ⟨u, calls ++ calls', hcollects.after hheard, hitem.repeated_item rfl hnext
          (fun hnil => ?_) (Nat.zero_le _)⟩
        have hnext := hclose.characters_ne_nil hp.after (t := t) ps
        exact absurd hnil hnext

/-! ### Sets -/

variable (pageSize) in
/-- What a matcher comes to on a text before `t`: a value on the stack, or it is
rejected at a byte that closes nothing. -/
def Makes (m : JSONMatch) (w : List BString) (t : BString) : Option Variable → Prop
  | some v => ∃ k calls, Comes (program pageSize) m w false true k (characters t) calls ∧ ∀ stack,
    heard calls stack = .ok (v :: stack)
  | none =>
    ∃ k d t' calls, Comes (program pageSize) m w false false k (characters (d :: t'))
      calls ∧ Blocks d ∧
      ∀ stack, ∃ pushed, heard calls stack = .ok (pushed ++ stack)

variable {openBrace : JSONMatch} {onbegin onend : JSONCall} {empty : α}

/-- The items of a set without the blank space in front of them. -/
def inner (close : UInt8) (t : BString) (p : Piece α) (ps : List (Piece α)) : BString :=
  match p.content with
  | none => following close t ps
  | some (x, _) => x ++ (p.after ++ following close t ps)

variable (item onset) in
/-- What stands between the braces. -/
abbrev setItems : JSONMatch :=
  .optional (.and [.invoke onset item none, .optional (subsequentItems item (mark 44) onset) none]
    0 none) none

theorem setItems_comes (hclose : Closes close)
    (hrefuse : RefusesMarks pageSize (.invoke onset item none) close)
    (h : ∀ q ∈ p :: ps, q.Holds pageSize wrap (.invoke onset item none)) :
    ∃ u calls, Collects wrap close t u calls (run (p :: ps)) ∧ ∃ s m,
      Comes (program pageSize) (setItems item onset) (characters (inner close t p ps)) s true m
        (characters u) calls := by
  have hp := h p List.mem_cons_self
  cases hcontent : p.content with
  | none =>
    obtain ⟨d, u, hu, hd⟩ := following_ne_nil close t ps
    obtain ⟨_, hitem⟩ := hrefuse d u hd
    rw [← hu] at hitem
    have hseq :
      Sequence (program pageSize) [] [.invoke onset item none,
      .optional (subsequentItems item (mark 44) onset) none]
        (characters (following close t ps)) false _ (characters (following close t ps)) [] :=
          .failed _ hitem
    obtain ⟨_, hseq⟩ := hseq.comes
    rw [inner, hcontent, run_missing hcontent]
    refine ⟨following close t ps, [], ?_, _, _, hseq.optional⟩
    cases ps with
    | nil => exact ⟨rfl, fun _ _ => rfl⟩
    | cons q ps => exact ⟨⟨44, _, rfl, blocks_comma⟩, fun a stack => ⟨[wrap a], rfl⟩⟩
  | some content =>
    obtain ⟨x, o⟩ := content
    have hgiven := hp.given _ hcontent
    have hafter : AfterNumber (p.after ++ following close t ps) :=
      afterNumber_of_fresh hp.after (hclose.following_head ps)
    rw [inner, hcontent]
    cases o with
    | none =>
      obtain ⟨_, d, t', calls, hcomes, hd, hheard⟩ := hgiven _ hafter
      have hseq :
        Sequence (program pageSize) [] [.invoke onset item none,
        .optional (subsequentItems item (mark 44) onset) none]
          (characters (x ++ (p.after ++ following close t ps))) false _ (characters (d :: t'))
            calls := .failed _ hcomes
      obtain ⟨_, hseq⟩ := hseq.comes
      rw [run_rejected hcontent]
      exact ⟨d :: t', calls, ⟨⟨d, t', rfl, hd⟩, hheard⟩, _, _, hseq.optional⟩
    | some g =>
      obtain ⟨_, calls, hcomes, hheard⟩ := hgiven _ hafter
      obtain ⟨u, calls', hcollects, _, _, hsubs⟩ :=
        subsequentItems_comes (t := t) hclose hrefuse ps p.after 0 hp.after fun q hq =>
          h q (List.mem_cons_of_mem p hq)
      obtain ⟨c, w, hw⟩ :=
        List.exists_cons_of_ne_nil (hclose.characters_ne_nil hp.after (t := t) ps)
      rw [hw] at hcomes hsubs
      obtain ⟨_, hseq⟩ :=
        (Sequence.cons (List.cons_ne_nil _ _) hcomes (.last hsubs.repeated_start.optional)).comes
      rw [run_accepted hcontent]
      exact ⟨u, calls ++ calls', hcollects.after hheard, _, _, hseq.optional⟩

variable (close) (t) in
/-- An item with no comma and no brace after it. -/
theorem setItems_blocked {w : List BString} {d : UInt8} {t' : BString} (hd : Blocks d)
    (hcomma : d ≠ 44)
    (h : Given pageSize wrap (.invoke onset item none) w (d :: t') o) :
    ∃ u calls, Collects wrap close t u calls none ∧ ∃ s m,
      Comes (program pageSize) (setItems item onset) w s true m (characters u) calls := by
  cases o with
  | none =>
    obtain ⟨_, d, t', calls, hcomes, hd, hheard⟩ := h
    have hseq :
      Sequence (program pageSize) [] [.invoke onset item none,
      .optional (subsequentItems item (mark 44) onset) none] w false _
        (characters (d :: t')) calls := .failed _ hcomes
    obtain ⟨_, hseq⟩ := hseq.comes
    exact ⟨d :: t', calls, ⟨⟨d, t', rfl, hd⟩, hheard⟩, _, _, hseq.optional⟩
  | some g =>
    obtain ⟨_, calls, hcomes, hheard⟩ := h
    have hnext : ∃ k, Comes (program pageSize) (subsequentItem item (mark 44) onset)
      (characters ([] ++ d :: t')) false false k
        (characters (d :: t')) [] :=
      subsequentItem_fails pageSize item onset (List.forall_mem_nil _) (fresh_cons hd.1 hd.2.1 t')
        fun heq => hcomma (Option.some.inj heq)
    obtain ⟨_, hnext⟩ := hnext
    have hsubs : ∃ s k, Comes (program pageSize) (.repeated (subsequentItem item (mark 44) onset)
      (some (subsequentItem item (mark 44) onset)) 0 0 0 none)
        (characters ([] ++ d :: t')) s true k (characters (d :: t')) [] := hnext.repeated_stop rfl
    obtain ⟨_, _, hsubs⟩ := hsubs
    rw [List.nil_append, characters_byte hd.1] at hsubs
    rw [characters_byte hd.1] at hcomes
    obtain ⟨_, hseq⟩ :=
      (Sequence.cons (List.cons_ne_nil _ _) hcomes (.last hsubs.repeated_start.optional)).comes
    rw [← characters_byte hd.1] at hseq
    exact ⟨d :: t', calls ++ [],
      ⟨⟨d, t', rfl, hd⟩, fun a stack => ⟨[wrap (g a)], by rw [List.append_nil, hheard]; rfl⟩⟩, _, _,
      hseq.optional⟩

variable (empty) in
theorem set_of_items {w : List BString} {v : BString} {m : JSONMatch} {s : Bool}
    (hclose : Closes close)
    (hbegin : ∀ m stack, ScriptParser.hear stack onbegin m = .ok (wrap empty :: stack))
    (hend : ∀ m stack, ScriptParser.hear stack onend m = .ok stack)
    (hopen : ∃ m, Comes (program pageSize) openBrace w false true m (characters v) [])
    (hitem : openBrace.result = none)
    (hitems : Comes (program pageSize) (setItems item onset) (characters v) s true m
      (characters u) calls)
    (hcollects : Collects wrap close t u calls o) :
    Makes pageSize
      (set openBrace item (mark 44) (.and [blankSpace 0, .character (some [close]) none] 0 none)
        onbegin onset onend)
      w t (o.map fun g => wrap (g empty)) := by
  obtain ⟨mo, hopen⟩ := hopen
  have hopen := hopen.invoke hitem (f := onbegin)
  rw [if_pos rfl, List.nil_append] at hopen
  have hstart : ∀ stack, heard [(onbegin, mo)] stack = .ok (wrap empty :: stack) := fun stack => by
    simp only [heard, List.foldlM_cons, List.foldlM_nil, hbegin]
    rfl
  cases o with
  | none =>
    obtain ⟨⟨d, t', rfl, hd⟩, hheard⟩ := hcollects
    obtain ⟨_, hbrace⟩ := close_fails pageSize (c := close) (t := d :: t')
      (fresh_cons hd.1 hd.2.1 _) fun heq => by
      obtain rfl := Option.some.inj heq
      exact hclose.brace.elim hd.2.2.1 hd.2.2.2
    have hbrace := hbrace.invoke rfl (f := onend)
    rw [if_neg Bool.false_ne_true, List.append_nil] at hbrace
    obtain ⟨_, hseq⟩ :=
      (Sequence.cons (List.cons_ne_nil _ _) hopen
      (.cons (List.cons_ne_nil _ _) hitems (.last hbrace))).comes
    refine ⟨_, d, t', _, hseq, hd, fun stack => ?_⟩
    obtain ⟨pushed, hpushed⟩ := hheard empty stack
    exact ⟨pushed, by rw [heard_append (hstart stack), List.append_nil, hpushed]⟩
  | some g =>
    obtain ⟨rfl, hheard⟩ := hcollects
    obtain ⟨_, hbrace⟩ := close_comes pageSize hclose.ascii hclose.blank (List.forall_mem_nil _) t
    have hbrace := hbrace.invoke rfl (f := onend)
    rw [if_pos rfl, List.nil_append, List.nil_append] at hbrace
    obtain ⟨_, hseq⟩ :=
      (Sequence.cons (List.cons_ne_nil _ _) hopen
      (.cons (List.cons_ne_nil _ _) hitems (.last hbrace))).comes
    refine ⟨_, _, hseq, fun stack => ?_⟩
    rw [heard_append (hstart stack), heard_append (hheard empty stack)]
    simp only [heard, List.foldlM_cons, List.foldlM_nil, hend]
    rfl

theorem Piece.inner_text (hclose : Closes close) (h : p.Holds pageSize wrap item)
    (ps : List (Piece α)) :
    ∃ x, (∀ b ∈ x, isBlank b = true) ∧ p.text ++ following close t ps = x ++ inner close t p ps ∧
      Fresh (inner close t p ps) := by
  cases hcontent : p.content with
  | none =>
    have hblank : ∀ b ∈ p.before ++ p.after, isBlank b = true :=
      fun b hb => (List.mem_append.mp hb).elim (h.before b) (h.after b)
    simp only [inner, hcontent]
    exact ⟨p.before ++ p.after, hblank, p.following_missing close t ps hcontent, hclose.fresh ps⟩
  | some content =>
    simp only [inner, hcontent]
    exact ⟨p.before, h.before, p.following_text close t ps hcontent, (h.starts _ hcontent).fresh _⟩

/-! ### Values -/

theorem heard_one {call : JSONCall} {m : JSONMatch} {stack stack' : List Variable}
    (h : ScriptParser.hear stack call m = .ok stack') :
    heard [(call, m)] stack = .ok stack' := by
  simp only [heard, List.foldlM_cons, List.foldlM_nil, h]
  rfl

variable {b : UInt8} {i : ℕ} {m m' : JSONMatch} {v : Variable} {ov : Option Variable}

/-- An item that is made a variable. -/
theorem json_makes (hi : items[i]? = some m) (hb : b < 0x80) (hblank : isBlank b = false)
    (hother : ∀ j < items.length, j ≠ i → startsItem j b = false)
    (h : Comes (program pageSize) m (characters (b :: x)) false true m' (characters t) [])
    (hvalue : ∀ stack,
      ScriptParser.onvalue stack (type i (itemValue m')) (itemValue m') = .ok (v :: stack)) :
    Makes pageSize json (characters (b :: x)) t (some v) := by
  obtain ⟨_, last, hjson, hhear⟩ := json_comes pageSize hi hb hblank hother h
  refine ⟨_, _, hjson, fun stack => ?_⟩
  rw [if_pos rfl, List.nil_append]
  exact heard_one ((hhear rfl stack).trans (hvalue stack))

/-- An item that has made its variable. -/
theorem Makes.json (hi : items[i]? = some m) (hb : b < 0x80) (hblank : isBlank b = false)
    (hother : ∀ j < items.length, j ≠ i → startsItem j b = false)
    (h : Makes pageSize m (characters (b :: x)) t ov)
    (hvalue : ∀ (v : Variable) stack value,
      ScriptParser.onvalue (v :: stack) (type i value) value = .ok (v :: stack)) :
    Makes pageSize json (characters (b :: x)) t ov := by
  cases ov with
  | none =>
    obtain ⟨_, d, t', calls, hcomes, hd, hheard⟩ := h
    obtain ⟨_, last, hjson, -⟩ := json_comes pageSize hi hb hblank hother hcomes
    rw [if_neg Bool.false_ne_true, List.append_nil] at hjson
    exact ⟨_, d, t', calls, hjson, hd, hheard⟩
  | some v =>
    obtain ⟨_, calls, hcomes, hheard⟩ := h
    obtain ⟨_, last, hjson, hhear⟩ := json_comes pageSize hi hb hblank hother hcomes
    refine ⟨_, _, hjson, fun stack => ?_⟩
    rw [if_pos rfl, heard_append (hheard stack)]
    exact heard_one ((hhear rfl _).trans (hvalue v stack _))

theorem Makes.value (hb : b < 0x80)
    (h : Makes pageSize JSONGrammar.json (characters (b :: x)) t ov) :
    Makes pageSize value (characters (b :: x)) t ov := by
  cases ov with
  | none =>
    obtain ⟨_, d, t', calls, hcomes, hd, hheard⟩ := h
    obtain ⟨_, hvalue⟩ := value_comes pageSize hb hcomes
    exact ⟨_, d, t', calls, hvalue, hd, hheard⟩
  | some v =>
    obtain ⟨_, calls, hcomes, hheard⟩ := h
    obtain ⟨_, hvalue⟩ := value_comes pageSize hb hcomes
    exact ⟨_, calls, hvalue, hheard⟩

variable (pageSize) in
theorem value_refuses (hb : b < 0x80) (hblank : isBlank b = false)
    (hstart : ∀ j < items.length, startsItem j b = false) (t : BString) :
    ∃ k, Comes (program pageSize) JSONGrammar.value (characters (b :: t)) false false k
      (characters (b :: t)) [] := by
  obtain ⟨_, hjson⟩ := json_fails pageSize hb hblank hstart t
  exact value_comes pageSize hb hjson

/-! ### Arrays -/

variable (pageSize) in
theorem arrayItem_refuses : RefusesMarks pageSize (.invoke .onarrayvalue value none) 93 := by
  intro d t hd
  have hstart : d < 0x80 ∧ isBlank d = false ∧ ∀ j < items.length, startsItem j d = false := by
    rcases hd with rfl | rfl
    · exact ⟨by decide, by decide, by decide⟩
    · exact ⟨by decide, by decide, by decide⟩
  obtain ⟨_, hvalue⟩ := value_refuses pageSize hstart.1 hstart.2.1 hstart.2.2 t
  exact ⟨_, hvalue.invoke rfl⟩

theorem Makes.arrayItem {w : List BString} (h : Makes pageSize JSONGrammar.value w t ov) :
    Given pageSize Variable.array (.invoke .onarrayvalue JSONGrammar.value none) w t
      (ov.map fun v elements => elements ++ [v]) := by
  cases ov with
  | none =>
    obtain ⟨_, d, t', calls, hcomes, hd, hheard⟩ := h
    have hitem := hcomes.invoke rfl (f := .onarrayvalue)
    rw [if_neg Bool.false_ne_true, List.append_nil] at hitem
    refine ⟨_, d, t', calls, hitem, hd, fun a stack => ?_⟩
    obtain ⟨pushed, hpushed⟩ := hheard (.array a :: stack)
    exact ⟨pushed ++ [.array a], by rw [hpushed, List.append_assoc]; rfl⟩
  | some v =>
    obtain ⟨_, calls, hcomes, hheard⟩ := h
    refine ⟨_, _, hcomes.invoke rfl, fun a stack => ?_⟩
    rw [if_pos rfl, heard_append (hheard _)]
    exact heard_one rfl

theorem closes_array : Closes 93 := ⟨by decide, by decide, by decide, Or.inl rfl⟩

theorem openArray_comes (hx : ∀ b ∈ x, isBlank b = true) (ht : Fresh t) : ∃ m,
    Comes (program pageSize) (.and [.character (some [91]) none, blankSpace 0] 0 none)
      (characters (91 :: (x ++ t))) false true m (characters t) [] := by
  obtain ⟨_, hafter⟩ := blankSpace_any pageSize hx ht
  obtain ⟨_, hseq⟩ :=
    (Sequence.cons (List.cons_ne_nil _ _) (comes_byte pageSize (b := 91) (by decide) _)
    (.last hafter)).comes
  exact ⟨_, hseq⟩

/-- An array of some items. -/
theorem array_makes {p : Piece (List Variable)} {ps : List (Piece (List Variable))}
    (h : ∀ q ∈ p :: ps, q.Holds pageSize Variable.array
      (.invoke .onarrayvalue JSONGrammar.value none)) :
    Makes pageSize array (characters (91 :: (p.text ++ following 93 t ps))) t
      ((run (p :: ps)).map fun g => .array (g [])) := by
  obtain ⟨x, hx, htext, hfresh⟩ :=
    Piece.inner_text (t := t) closes_array (h p List.mem_cons_self) ps
  obtain ⟨u, calls, hcollects, _, _, hitems⟩ :=
    setItems_comes (t := t) closes_array (arrayItem_refuses pageSize) h
  rw [htext]
  exact set_of_items [] closes_array (fun _ _ => rfl) (fun _ _ => rfl) (openArray_comes hx hfresh)
    rfl hitems hcollects

/-- An array whose first item has neither a comma nor the brace after it. -/
theorem array_blocked {d : UInt8} {t' : BString} (hx : Fresh x) (hd : Blocks d) (hcomma : d ≠ 44)
    (h : Makes pageSize JSONGrammar.value (characters x) (d :: t') ov) :
    Makes pageSize array (characters (91 :: x)) t none := by
  obtain ⟨u, calls, hcollects, _, _, hitems⟩ := setItems_blocked 93 t hd hcomma h.arrayItem
  exact set_of_items [] closes_array (fun _ _ => rfl) (fun _ _ => rfl)
    (openArray_comes (List.forall_mem_nil _) hx) rfl hitems hcollects

/-! ### Objects -/

variable (pageSize) in
theorem member_refuses : RefusesMarks pageSize (.invoke .onsetvalue keyValue none) 125 := by
  intro d t hd
  have hstart : d < 0x80 ∧ isBlank d = false ∧ startsItem 4 d = false := by
    rcases hd with rfl | rfl
    · exact ⟨by decide, by decide, by decide⟩
    · exact ⟨by decide, by decide, by decide⟩
  have hkey : Match.Refuses (program pageSize) [d] keyValue :=
    .invoke (.and _ (.invoke (items_refuse pageSize hstart.2.1 4 hstart.2.2 _ rfl)))
  obtain ⟨-, _, hturn, hdead⟩ := hkey.invoke (f := .onsetvalue)
  rw [characters_byte hstart.1]
  exact ⟨_, .failed (.failed hturn hdead.1)⟩

variable (pageSize) in
theorem string_value {key : BString} (h : Whole key) (t : BString) : ∃ m,
    Comes (program pageSize) string (characters (34 :: (key.escape ++ 34 :: t))) false true m
      (characters t) [] ∧
      itemValue m = JSONString.value pageSize key := by
  obtain ⟨cs, hcs, rfl⟩ := h
  obtain ⟨_, hcomes⟩ := string_comes pageSize hcs t
  refine ⟨_, hcomes, ?_⟩
  rw [JSONString.value, Parser.characters_text hcs]
  rfl

theorem Makes.member {key z : BString} (hkey : Whole key) (hx : ∀ b ∈ x, isBlank b = true)
    (hy : ∀ b ∈ y, isBlank b = true) (hz : Starts z)
    (h : Makes pageSize JSONGrammar.value (characters (z ++ t)) t ov) :
    Given pageSize Variable.object (.invoke .onsetvalue keyValue none)
      (characters (34 :: (key.escape ++ 34 :: (x ++ 58 :: (y ++ (z ++ t)))))) t
      (ov.map (Members.set (JSONString.value pageSize key))) := by
  obtain ⟨_, hstring, hvalue⟩ := string_value pageSize hkey (x ++ 58 :: (y ++ (z ++ t)))
  have hstring := hstring.invoke rfl (f := .onobjectkey)
  obtain ⟨_, hcolon⟩ := mark_comes pageSize (c := 58) (by decide) (by decide) hx hy (hz.fresh t)
  have hcolon := hcolon.invoke rfl (f := .onsetupkeyvalue)
  rw [if_pos rfl, List.nil_append] at hstring hcolon
  cases ov with
  | none =>
    obtain ⟨_, d, t', calls, hcomes, hd, hheard⟩ := h
    obtain ⟨_, hseq⟩ :=
      (Sequence.cons (List.cons_ne_nil _ _) hstring
      (.cons (List.cons_ne_nil _ _) hcolon (.last hcomes))).comes
    have hitem := (hseq.invoke rfl (f := .onobjectvalue)).invoke rfl (f := .onsetvalue)
    simp only [Bool.false_eq_true, if_false, List.append_nil] at hitem
    refine ⟨_, d, t', _, hitem, hd, fun a stack => ?_⟩
    obtain ⟨pushed, hpushed⟩ := hheard (.object a :: stack)
    refine ⟨pushed ++ [.object a], ?_⟩
    rw [heard_append (heard_one rfl), heard_append (heard_one rfl), hpushed, List.append_assoc]
    rfl
  | some v =>
    obtain ⟨_, calls, hcomes, hheard⟩ := h
    obtain ⟨_, hseq⟩ :=
      (Sequence.cons (List.cons_ne_nil _ _) hstring
      (.cons (List.cons_ne_nil _ _) hcolon (.last hcomes))).comes
    have hitem := (hseq.invoke rfl (f := .onobjectvalue)).invoke rfl (f := .onsetvalue)
    simp only [if_true] at hitem
    refine ⟨_, _, hitem, fun a stack => ?_⟩
    have hread : ∀ key colon,
      heard ([(.onobjectkey, key)] ++ ([(.onsetupkeyvalue, colon)] ++ calls)) (.object a :: stack) =
        .ok (v :: .object a :: stack) := fun key colon => by
      rw [heard_append (heard_one rfl), heard_append (heard_one rfl), hheard]
    rw [List.append_assoc, heard_append (hread _ _), ← hvalue]
    rfl

theorem closes_object : Closes 125 := ⟨by decide, by decide, by decide, Or.inr rfl⟩

theorem openObject_comes (hx : ∀ b ∈ x, isBlank b = true) (ht : Fresh t) : ∃ m,
    Comes (program pageSize) (mark 123) (characters (123 :: (x ++ t))) false true m
      (characters t) [] :=
  mark_comes pageSize (by decide) (by decide) (List.forall_mem_nil _) hx ht

/-- An object of some members. -/
theorem object_makes {p : Piece Members} {ps : List (Piece Members)}
    (h : ∀ q ∈ p :: ps, q.Holds pageSize Variable.object (.invoke .onsetvalue keyValue none)) :
    Makes pageSize object (characters (123 :: (p.text ++ following 125 t ps))) t
      ((run (p :: ps)).map fun g => .object (g [])) := by
  obtain ⟨x, hx, htext, hfresh⟩ :=
    Piece.inner_text (t := t) closes_object (h p List.mem_cons_self) ps
  obtain ⟨u, calls, hcollects, _, _, hitems⟩ :=
    setItems_comes (t := t) closes_object (member_refuses pageSize) h
  rw [htext]
  exact set_of_items [] closes_object (fun _ _ => rfl) (fun _ _ => rfl) (openObject_comes hx hfresh)
    rfl hitems hcollects

end JSONGrammar

end BeeFish
