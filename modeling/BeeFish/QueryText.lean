/-
# Spellings of a query

The texts that a query can be written with: blanks before every token and at
the end, an operator as a word in any letters or as a symbol, a dollar before
the end of a bracket, anything after a character that no token starts with. A
word is spelled by a run of characters that begins with no operator. Such a
text is parsed as its tokens if the expression succeeds with them
(`Expression.parse_spelled`).

Key definitions: `Spelling`, `Spelling.Valid`, `Reader.Reads`.
-/
import BeeFish.QueryParse
import BeeFish.URLText

namespace BeeFish

open QueryGrammar

/-! ### Spellings -/

/-- How a token is written; those in a bracket with the blanks before each. -/
inductive Spelling where
  | run (characters : List BString)
  | symbol (character : BString)
  | bracket (tokens : List (List BString × Spelling)) (last : List BString) (dollar : Bool)

namespace Spelling

mutual

def characters : Spelling → List BString
  | run cs => cs
  | symbol c => [c]
  | bracket tokens last dollar =>
    text "(" :: (charactersAll tokens ++ last ++ (if dollar then [text "$"] else []) ++ [text ")"])

def charactersAll : List (List BString × Spelling) → List BString
  | [] => []
  | (before, t) :: tokens => before ++ characters t ++ charactersAll tokens

end

section

variable (operator : List BString → Option Token)

mutual

def token : Spelling → Token
  | run cs => (operator cs).getD (.word cs.flatten)
  | symbol c => if c = text "!" then .not else if c = text "+" then .and else .or
  | bracket ts _ _ => .bracket (tokens ts)

def tokens : List (List BString × Spelling) → List Token
  | [] => []
  | (_, t) :: ts => token t :: tokens ts

end

/-- A run of whole characters that is no separator, and no operator before its
end. -/
def IsRun (cs : List BString) : Prop :=
  cs ≠ [] ∧ (∀ c ∈ cs, c ∉ seperators ∧ Parser.IsWhole c) ∧ ∀ k < cs.length,
    operator (cs.take k) = none

def isWord : Spelling → Bool
  | run cs => (operator cs).isNone
  | _ => false

mutual

def Valid : Spelling → Prop
  | run cs => IsRun operator cs
  | symbol c => c ∈ [text "!", text "+", text "|"]
  | bracket tokens last _ => ValidAll tokens ∧ ∀ c ∈ last, c ∈ blanks

/-- After a word comes a separator, or nothing. -/
def ValidAll : List (List BString × Spelling) → Prop
  | [] => True
  | (before, t) :: ts =>
    (∀ c ∈ before, c ∈ blanks) ∧ Valid t ∧
      (isWord operator t = true → ∀ c ∈ (charactersAll ts).head?, c ∈ seperators) ∧
      ValidAll ts

end

end

end Spelling

/-! ### Reading a spelling -/

namespace Reader

open Expression

/-- The characters take the reader from one place to another. -/
def Reads (e : Expression) : Reader → List BString → Reader → Prop
  | r, [], r' => r = r'
  | r, c :: cs, r' => ∃ r₁, read e r c = .ok (.reading r₁) ∧ Reads e r₁ cs r'

variable {e : Expression} {r r' r'' : Reader} {cs ds : List BString} {ts us ws : List Token}
    {c : BString}

theorem Reads.append : ∀ {cs : List BString} {r : Reader}, Reads e r cs r' → Reads e r' ds r'' →
    Reads e r (cs ++ ds) r''
  | [], _, h, h' => by
    obtain rfl : _ = r' := h
    exact h'
  | _ :: _, _, ⟨r₁, hr, h⟩, h' => ⟨r₁, hr, h.append h'⟩

theorem Reads.single (h : read e r c = .ok (.reading r')) : Reads e r [c] r' := ⟨r', h, rfl⟩

theorem Reads.readAll : ∀ {cs : List BString} {r : Reader}, Reads e r cs r' →
    ∀ rest, readAll e r (cs ++ rest) = readAll e r' rest
  | [], _, h, rest => by
    obtain rfl : _ = r' := h
    rfl
  | c :: cs, r, ⟨r₁, hr, h⟩, rest => by
    rw [List.cons_append, Reader.readAll, hr]
    exact h.readAll rest

/-- Inside a bracket -/
theorem Reads.bracket (ts : List Token) : ∀ {cs : List BString} {r : Reader},
    Reads e.createItem r cs r' →
    Reads e (.bracket ts r) cs (.bracket ts r')
  | [], _, h => congrArg (Reader.bracket ts) h
  | c :: cs, r, ⟨r₁, hr, h⟩ => by
    refine ⟨.bracket ts r₁, ?_, h.bracket ts⟩
    rw [read, hr]
    rfl

/-- The tokens have been read, and no word is unfinished. -/
inductive After : List Token → Reader → Prop where
  | start : After [] .start
  | ready (ts : List Token) : After ts (.ready ts)

/-- The tokens have been read when the word ends that is unfinished. -/
inductive Ends (e : Expression) : List Token → Reader → Prop where
  | after {ts : List Token} {r : Reader} (h : After ts r) : Ends e ts r
  | word (ts : List Token) (run : List BString)
      (h : e.push ts (.word run.flatten) = .ok (ts ++ [.word run.flatten])) :
      Ends e (ts ++ [.word run.flatten]) (.word ts run)

theorem After.blanks (h : After ts r) : ∀ {cs : List BString}, (∀ c ∈ cs, c ∈ blanks) →
    ∃ r', Reads e r cs r' ∧ After ts r'
  | [], _ => ⟨r, rfl, h⟩
  | c :: cs, hcs => by
    obtain ⟨hc, hcs⟩ := List.forall_mem_cons.mp hcs
    obtain ⟨r', hr, h'⟩ := h.blanks hcs
    refine ⟨r', ⟨r, ?_, hr⟩, h'⟩
    cases h with
    | start =>
      rw [read, if_pos hc]
      rfl
    | ready ts =>
      rw [read, readNext, if_pos hc]
      rfl

theorem blank_seperator : ∀ c ∈ blanks, c ∈ seperators := by decide

/-- A separator ends the word. -/
theorem Ends.read (h : Ends e ts r) (hc : c ∈ seperators) : ∃ r', After ts r' ∧
    Reader.read e r c = Reader.read e r' c := by
  cases h with
  | after h => exact ⟨r, h, rfl⟩
  | word ts run h =>
    refine ⟨.ready (ts ++ [.word run.flatten]), .ready _, ?_⟩
    unfold Reader.read
    rw [if_neg (by simpa using hc), h]
    rfl

theorem Ends.eof (h : Ends e ts r) : Reader.eof e r = .ok (finish e ts) := by
  cases h with
  | after h =>
    cases h with
    | start => rfl
    | ready ts => rfl
  | word ts run h =>
    rw [Reader.eof, h]
    rfl

theorem After.read (h : After ts r) (hc : c ∉ QueryGrammar.blanks) :
    Reader.read e r c = readToken e ts c := by
  cases h with
  | start => rw [Reader.read, if_neg hc]
  | ready ts => rw [Reader.read, readNext, if_neg hc]

theorem Ends.blanks (h : Ends e ts r) (hcs : ∀ c ∈ cs, c ∈ QueryGrammar.blanks) :
    ∃ r', Reads e r cs r' ∧ Ends e ts r' := by
  cases cs with
  | nil => exact ⟨r, rfl, h⟩
  | cons c cs =>
    obtain ⟨hc, hcs'⟩ := List.forall_mem_cons.mp hcs
    obtain ⟨r₁, h₁, hr⟩ := h.read (blank_seperator c hc)
    obtain ⟨r', ⟨r₂, hr₂, h₂⟩, h'⟩ := h₁.blanks (e := e) hcs
    exact ⟨r', ⟨r₂, hr.trans hr₂, h₂⟩, .after h'⟩

/-! ### A run -/

theorem push_ok {t : Token} {stack : Items} (h : feedTokens e [] (ts ++ [t]) = .ok stack) :
    e.push ts t = .ok (ts ++ [t]) := by
  rw [push, h]
  rfl

/-- The characters of a word so far -/
theorem reads_word (hr : After ts r) : ∀ {cs : List BString}, cs ≠ [] → (∀ c ∈ cs, c ∉ seperators) →
    (∀ k ≤ cs.length, e.operator (cs.take k) = none) → Reads e r cs (.word ts cs) := by
  intro cs
  induction cs using List.reverseRecOn with
  | nil => exact fun h => absurd rfl h
  | append_singleton cs c ih =>
    intro _ hs hop
    have hc : c ∉ seperators := hs c (by simp)
    have hlast : e.operator (cs ++ [c]) = none := by
      have h := hop (cs ++ [c]).length le_rfl
      rwa [List.take_length] at h
    by_cases h0 : cs = []
    · subst h0
      apply Reads.single
      rw [hr.read fun hb => hc (blank_seperator c hb), readToken, if_pos hc, readRun]
      rw [List.nil_append] at hlast ⊢
      rw [hlast]
      rfl
    · have hcs : Reads e r cs (.word ts cs) := by
        apply ih h0 fun d hd => hs d (by simp [hd])
        intro k hk
        have h := hop k (by simp; omega)
        rwa [List.take_append_of_le_length hk] at h
      apply hcs.append
      apply Reads.single
      rw [Reader.read, if_pos hc, readRun, hlast]
      rfl

theorem reads_run {run : List BString} (h : Spelling.IsRun e.operator run) (hr : After ts r)
    (hpush : e.push ts (Spelling.token e.operator (.run run)) =
      .ok (ts ++ [Spelling.token e.operator (.run run)])) : ∃ r', Reads e r run r' ∧
      Ends e (ts ++ [Spelling.token e.operator (.run run)]) r' ∧
        (Spelling.isWord e.operator (.run run) = false →
        After (ts ++ [Spelling.token e.operator (.run run)]) r') := by
  obtain ⟨h0, hs, hop⟩ := h
  cases ht : e.operator run with
  | none =>
    have htoken : Spelling.token e.operator (.run run) = .word run.flatten := by
      simp [Spelling.token, ht]
    rw [htoken] at hpush ⊢
    refine ⟨.word ts run, reads_word hr h0 (fun c hc => (hs c hc).1) ?_, .word ts run hpush, ?_⟩
    · intro k hk
      rcases Nat.lt_or_eq_of_le hk with hk | rfl
      · exact hop k hk
      · rwa [List.take_length]
    · intro hw
      simp [Spelling.isWord, ht] at hw
  | some t =>
    have htoken : Spelling.token e.operator (.run run) = t := by simp [Spelling.token, ht]
    rw [htoken] at hpush ⊢
    refine ⟨.ready (ts ++ [t]), ?_, .after (.ready _), fun _ => .ready _⟩
    obtain ⟨cs, c, rfl⟩ : ∃ cs c, run = cs ++ [c] := ⟨_, _, (List.dropLast_append_getLast h0).symm⟩
    have hc : c ∉ seperators := (hs c (by simp)).1
    have hrun : readRun e ts (cs ++ [c]) = .ok (.reading (.ready (ts ++ [t]))) := by
      rw [readRun, ht]
      simp only [hpush]
      rfl
    by_cases h0 : cs = []
    · subst h0
      apply Reads.single
      rw [hr.read fun hb => hc (blank_seperator c hb), readToken, if_pos hc]
      exact hrun
    · have hcs : Reads e r cs (.word ts cs) := by
        apply reads_word hr h0 fun d hd => (hs d (by simp [hd])).1
        intro k hk
        have h := hop k (by simp; omega)
        rwa [List.take_append_of_le_length hk] at h
      apply hcs.append
      apply Reads.single
      rw [Reader.read, if_pos hc]
      exact hrun

theorem reads_symbol (hc : c ∈ [text "!", text "+", text "|"]) (hr : After ts r)
    (hpush : e.push ts (Spelling.token e.operator (.symbol c)) =
      .ok (ts ++ [Spelling.token e.operator (.symbol c)])) :
    Reads e r [c] (.ready (ts ++ [Spelling.token e.operator (.symbol c)])) := by
  have hs : ∀ c ∈ [text "!", text "+", text "|"], c ∈ seperators ∧ c ∉ blanks := by decide
  obtain ⟨hs, hb⟩ := hs c hc
  apply Reads.single
  rw [hr.read hb, readToken, if_neg (by simpa using hs)]
  simp only [List.mem_cons, List.not_mem_nil, or_false] at hc
  rcases hc with rfl | rfl | rfl
  · rw [if_pos rfl]
    simp only [Spelling.token, if_true] at hpush ⊢
    rw [hpush]
    rfl
  · rw [if_neg (by decide), if_pos rfl]
    have htoken : Spelling.token e.operator (.symbol (text "+")) = .and := rfl
    rw [htoken] at hpush ⊢
    rw [hpush]
    rfl
  · rw [if_neg (by decide), if_neg (by decide), if_pos rfl]
    have htoken : Spelling.token e.operator (.symbol (text "|")) = .or := rfl
    rw [htoken] at hpush ⊢
    rw [hpush]
    rfl

/-! ### A bracket -/

theorem reads_open (hr : After ts r) : Reads e r [text "("] (.bracket ts .start) := by
  apply Reads.single
  rw [hr.read (by decide), readToken]
  rfl

/-- The end of a bracket whose expression has been read -/
theorem reads_close (hr : Ends e.createItem us r) (hs : e.createItem.succeeds us = true)
    (dollar : Bool)
    (hpush : e.push ts (.bracket us) = .ok (ts ++ [.bracket us])) :
    Reads e (.bracket ts r) ((if dollar then [text "$"] else []) ++ [text ")"])
      (.ready (ts ++ [.bracket us])) := by
  have hclose : close e ts us (text ")") = .ok (.reading (.ready (ts ++ [.bracket us]))) := by
    rw [close, if_pos rfl, hpush]
    rfl
  have hstop : ∀ c ∈ [text "$", text ")"], Reader.read e.createItem r c =
    .ok (.succeeded us (c == text "$")) := by
    intro c hc
    have hall : ∀ c ∈ [text "$", text ")"], c ∈ seperators ∧ c ∉ blanks ∧ c ≠ text "!" ∧
      c ≠ text "+" ∧ c ≠ text "|" ∧ c ≠ text "(" := by
      decide
    obtain ⟨hsep, hb, h1, h2, h3, h4⟩ := hall c hc
    obtain ⟨r', hr', hread⟩ := hr.read hsep
    rw [hread, hr'.read hb, readToken, if_neg (by simpa using hsep), if_neg h1, if_neg h2,
      if_neg h3, if_neg h4, stop, if_pos hs]
    rfl
  cases dollar with
  | false =>
    apply Reads.single
    rw [Reader.read, hstop _ (by simp)]
    exact hclose
  | true =>
    refine ⟨.closing ts us, ?_, Reads.single hclose⟩
    rw [Reader.read, hstop _ (by simp)]
    rfl

/-! ### Tokens -/

theorem feedTokens_split {stack : Items} : ∀ {ts : List Token} {s : Items},
    feedTokens e s (ts ++ us) = .ok stack →
    ∃ s', feedTokens e s ts = .ok s' ∧ feedTokens e s' us = .ok stack
  | [], s, h => ⟨s, rfl, h⟩
  | t :: ts, s, h => by
    rw [List.cons_append, feedTokens] at h
    rw [feedTokens]
    cases ht : t.feed e s with
    | error f =>
      rw [ht] at h
      cases h
    | ok s' =>
      rw [ht] at h
      exact feedTokens_split h

/-- An expression in brackets is one operand, or it is rejected. -/
theorem operand_or_rejected (e : Expression) (us : List Token) {inner : Items}
    (hus : feedTokens e.createItem [] us = .ok inner) :
    (∃ item, inner = [.iterable item]) ∨
      inner.success = false ∧ ∀ stack, (Token.bracket us).feed e stack = .error .rejected := by
  simp only [Token.feed, hus]
  cases inner with
  | nil => exact Or.inr ⟨rfl, fun _ => rfl⟩
  | cons x inner =>
    cases inner with
    | nil =>
      cases x with
      | iterable item => exact Or.inl ⟨item, rfl⟩
      | and => exact Or.inr ⟨rfl, fun _ => rfl⟩
      | or => exact Or.inr ⟨rfl, fun _ => rfl⟩
      | not => exact Or.inr ⟨rfl, fun _ => rfl⟩
    | cons y inner => cases x <;> exact Or.inr ⟨rfl, fun _ => rfl⟩

theorem push_of_feed {t : Token} {stack : Items} (h : feedTokens e [] (ts ++ t :: us) = .ok stack) :
    e.push ts t = .ok (ts ++ [t]) := by
  rw [← List.singleton_append, ← List.append_assoc] at h
  obtain ⟨s, hs, -⟩ := feedTokens_split h
  exact push_ok hs

theorem succeeds_of_feed {stack : Items}
    (h : feedTokens e [] (ts ++ .bracket us :: ws) = .ok stack) :
    ∃ inner, feedTokens e.createItem [] us = .ok inner ∧ e.createItem.succeeds us = true := by
  obtain ⟨s, -, hs⟩ := feedTokens_split h
  rw [feedTokens] at hs
  cases hus : feedTokens e.createItem [] us with
  | error f =>
    rw [Token.feed, hus] at hs
    cases hs
  | ok inner =>
    refine ⟨inner, rfl, ?_⟩
    rw [Expression.succeeds, hus]
    rcases operand_or_rejected e us hus with ⟨item, rfl⟩ | ⟨-, hrejected⟩
    · rfl
    · rw [hrejected s] at hs
      cases hs

/-- After a word, what starts with a separator is read as after a token. -/
theorem Ends.reads (h : Ends e ts r) (hcs : ∀ c ∈ cs.head?, c ∈ seperators) : cs = [] ∨
    ∃ r', After ts r' ∧ ∀ r'', Reads e r' cs r'' → Reads e r cs r'' := by
  cases cs with
  | nil => exact Or.inl rfl
  | cons c cs =>
    obtain ⟨r', hr', hread⟩ := h.read (hcs c rfl)
    refine Or.inr ⟨r', hr', ?_⟩
    rintro r'' ⟨r₁, hr₁, h₁⟩
    exact ⟨r₁, hread.trans hr₁, h₁⟩

open Spelling

theorem characters_ne_nil {t : Spelling} (h : t.Valid e.operator) : t.characters ≠ [] := by
  cases t with
  | run run => exact h.1
  | symbol c => exact List.cons_ne_nil _ _
  | bracket items last dollar =>
    rw [Spelling.characters]
    exact List.cons_ne_nil _ _

mutual

theorem reads_token :
    ∀ (t : Spelling) {e : Expression} {ts : List Token} {r : Reader} {stack : Items},
      t.Valid e.operator →
    After ts r → feedTokens e [] (ts ++ [t.token e.operator]) = .ok stack →
      ∃ r', Reads e r t.characters r' ∧
      Ends e (ts ++ [t.token e.operator]) r' ∧
        (t.isWord e.operator = false → After (ts ++ [t.token e.operator]) r')
  | .run cs, e, ts, r, stack, h, hr, hfeed => reads_run h hr (push_of_feed hfeed)
  | .symbol c, e, ts, r, stack, h, hr, hfeed =>
    ⟨_, reads_symbol h hr (push_of_feed hfeed), .after (.ready _), fun _ => .ready _⟩
  | .bracket items last dollar, e, ts, r, stack, h, hr, hfeed => by
    have htoken : (Spelling.bracket items last dollar).token e.operator = .bracket
      (Spelling.tokens e.createItem.operator items) := rfl
    rw [htoken] at hfeed ⊢
    obtain ⟨inner, hinner, hs⟩ := succeeds_of_feed hfeed
    obtain ⟨r₁, h₁, hends⟩ := reads_tokens items (e := e.createItem) h.1 .start hinner
    rw [List.nil_append] at hends
    obtain ⟨r₂, h₂, hends⟩ := hends.blanks h.2
    have hclose := reads_close hends hs dollar (push_of_feed hfeed)
    refine ⟨_, ?_, .after (.ready _), fun _ => .ready _⟩
    have hall :=
      (reads_open (e := e) hr).append (((h₁.bracket ts).append (h₂.bracket ts)).append hclose)
    simpa [Spelling.characters] using hall

theorem reads_tokens :
    ∀ (items : List (List BString × Spelling)) {e : Expression} {ts : List
      Token} {r : Reader} {stack : Items},
    ValidAll e.operator items → After ts r →
      feedTokens e [] (ts ++ Spelling.tokens e.operator items) = .ok stack →
    ∃ r', Reads e r (charactersAll items) r' ∧ Ends e (ts ++ Spelling.tokens e.operator items) r'
  | [], e, ts, r, stack, _, hr, _ => ⟨r, rfl, by simpa [Spelling.tokens] using Ends.after hr⟩
  | (before, t) :: items, e, ts, r, stack, h, hr, hfeed => by
    obtain ⟨hbefore, ht, hword, hitems⟩ := h
    have htokens :
        ts ++ Spelling.tokens e.operator ((before, t) :: items) =
          ts ++ [t.token e.operator] ++ Spelling.tokens e.operator items := by
      simp [Spelling.tokens]
    rw [htokens] at hfeed ⊢
    obtain ⟨s, hs, -⟩ := feedTokens_split hfeed
    obtain ⟨r₁, h₁, hr₁⟩ := hr.blanks (e := e) hbefore
    obtain ⟨r₂, h₂, hends, hafter⟩ := reads_token t ht hr₁ hs
    have hfirst := h₁.append h₂
    rw [charactersAll]
    cases hw : t.isWord e.operator with
    | false =>
      obtain ⟨r₃, h₃, hends⟩ := reads_tokens items hitems (hafter hw) hfeed
      exact ⟨r₃, hfirst.append h₃, hends⟩
    | true =>
      rcases hends.reads (hword hw) with h0 | ⟨r', hr', hstep⟩
      · -- nothing comes after the word
        obtain rfl : items = [] := by
          cases items with
          | nil => rfl
          | cons item items =>
            rw [charactersAll] at h0
            exact absurd (List.append_eq_nil_iff.mp (List.append_eq_nil_iff.mp h0).1).2
              (characters_ne_nil hitems.2.1)
        exact ⟨r₂, by simpa [charactersAll] using hfirst, by simpa [Spelling.tokens] using hends⟩
      · obtain ⟨r₃, h₃, hends⟩ := reads_tokens items hitems hr' hfeed
        exact ⟨r₃, hfirst.append (hstep r₃ h₃), hends⟩

end

/-! ### The end -/

/-- The characters that no token starts with and that are no blank -/
def stops : List BString := [text ")", text "$", text ";"]

theorem After.stop (h : After ts r) (hc : c ∈ stops) :
    Reader.read e r c = .ok (Reader.stop e ts c) := by
  have hall : ∀ c ∈ stops, c ∈ seperators ∧ c ∉ QueryGrammar.blanks ∧ c ≠ text "!" ∧ c ≠ text "+" ∧
    c ≠ text "|" ∧ c ≠ text "(" := by
    decide
  obtain ⟨hsep, hb, h1, h2, h3, h4⟩ := hall c hc
  rw [h.read hb, readToken, if_neg (by simpa using hsep), if_neg h1, if_neg h2,
    if_neg h3, if_neg h4]
  rfl

theorem Ends.readAll (h : Ends e ts r) (hcs : ∀ c ∈ cs.head?, c ∈ stops) :
    Reader.readAll e r cs = .ok (finish e ts) := by
  cases cs with
  | nil => exact h.eof
  | cons c cs =>
    have hc := hcs c rfl
    have hsep : ∀ c ∈ stops, c ∈ seperators := by decide
    obtain ⟨r', hr', hread⟩ := h.read (hsep c hc)
    rw [Reader.readAll, hread, hr'.stop hc, Reader.stop, finish]
    cases e.succeeds ts <;> rfl

end Reader

/-! ### What is read -/

section

variable (operator : List BString → Option Token)

mutual

/-- The words, at any depth, are runs that begin with no operator. -/
def Token.Plain : Token → Prop
  | .word w => ∃ cs, Spelling.IsRun operator cs ∧ operator cs = none ∧ w = cs.flatten
  | .bracket ts => PlainAll ts
  | _ => True

def Token.PlainAll : List Token → Prop
  | [] => True
  | t :: ts => t.Plain ∧ PlainAll ts

end

end

theorem Token.plainAll_append (operator : List BString → Option Token) : ∀ (ts us : List Token),
    PlainAll operator (ts ++ us) ↔ PlainAll operator ts ∧ PlainAll operator us
  | [], us => by simp [PlainAll]
  | t :: ts, us => by
    rw [List.cons_append, PlainAll, PlainAll, plainAll_append operator ts us, and_assoc]

namespace Reader

open Expression Token

variable {e : Expression} {r r' : Reader} {cs run : List BString} {ts us : List Token} {c : BString}

/-- What has been fed to the expression: its words are plain. -/
def Sound (e : Expression) (ts : List Token) : Prop :=
  PlainAll e.operator ts ∧ ∃ stack, feedTokens e [] ts = .ok stack

/-- A token that is read: the expression of a bracket has succeeded. -/
def Fits (e : Expression) (t : Token) : Prop :=
  t.Plain e.operator ∧ ∀ us, t = .bracket us → e.createItem.succeeds us = true

/-- The words that have been read are plain, and an unfinished one is so far. -/
def Good (e : Expression) : Reader → Prop
  | start => True
  | ready ts => Sound e ts
  | word ts run => Sound e ts ∧ Spelling.IsRun e.operator run ∧ e.operator run = none
  | bracket ts inner => Sound e ts ∧ inner.Good e.createItem
  | closing ts us => Sound e ts ∧ Fits e (.bracket us)

/-- What a character comes to is as good, and a failure is an operand that is
none. -/
def ResultGood (e : Expression) : Except Failure ReadResult → Prop
  | .ok (.reading r) => r.Good e
  | .ok (.succeeded ts _) => e.succeeds ts = true ∧ PlainAll e.operator ts
  | .ok .failed => True
  | .error f => f = .dereferenced

theorem pushBackIterable_error {x : IterableItem} {stack : Items} {f : Failure}
    (h : pushBackIterable e x stack = .error f) :
    f = .dereferenced := by
  have hjoin : ∀ {isAnd : Bool} {left : Item} {right : IterableItem} {stack : Items},
    join isAnd left right stack = .error f →
      f = .dereferenced := by
    intro isAnd left right stack h
    unfold join at h
    split at h
    · split_ifs at h
    · exact (Except.error.inj h).symm
  have hleft : ∀ {right : IterableItem} {stack : Items}, pushBackLeft right stack = .error f →
    f = .dereferenced := by
    intro right stack h
    unfold pushBackLeft at h
    split at h
    · cases h
    · exact hjoin h
    · exact hjoin h
    · exact hjoin h
    · exact (Except.error.inj h).symm
  unfold pushBackIterable at h
  split at h
  · exact hleft h
  · exact hleft h

theorem push_eq {stack : Items} (hfeed : feedTokens e [] ts = .ok stack) (t : Token) :
    e.push ts t = (t.feed e stack).map fun _ => ts ++ [t] := by
  unfold Expression.push
  rw [feedTokens_push hfeed]

/-- The only failure is an operand that is none. -/
theorem feed_error {t : Token} {stack : Items} {f : Failure} (ht : Fits e t)
    (h : t.feed e stack = .error f) : f = .dereferenced := by
  cases t with
  | word w => exact pushBackIterable_error h
  | and => cases h
  | or => cases h
  | not => cases h
  | bracket us =>
    have hs := ht.2 us rfl
    rw [Expression.succeeds] at hs
    cases hus : feedTokens e.createItem [] us with
    | error g =>
      rw [hus] at hs
      cases hs
    | ok inner =>
      rw [hus] at hs
      rcases operand_or_rejected e us hus with ⟨item, rfl⟩ | ⟨hfalse, -⟩
      · rw [Token.feed, hus] at h
        exact pushBackIterable_error h
      · exact absurd (hs.symm.trans hfalse) (by simp)

theorem resultGood_push {t : Token} (h : Sound e ts) (ht : Fits e t)
    {f : List Token → Except Failure ReadResult}
    (hf : ∀ us, Sound e us → ResultGood e (f us)) : ResultGood e (e.push ts t >>= f) := by
  obtain ⟨hplain, stack, hfeed⟩ := h
  rw [push_eq hfeed]
  cases hpush : t.feed e stack with
  | error failure => exact feed_error ht hpush
  | ok stack' =>
    refine hf (ts ++ [t]) ⟨(plainAll_append e.operator ts [t]).mpr ⟨hplain, ht.1, trivial⟩,
      stack', ?_⟩
    rw [feedTokens_push hfeed, hpush]

theorem resultGood_stop (h : Sound e ts) (c : BString) : ResultGood e (.ok (stop e ts c)) := by
  unfold stop
  split_ifs with hs
  · exact ⟨hs, h.1⟩
  · trivial

/-- The tokens of an operator -/
theorem fits_operator {t : Token} (h : e.operator run = some t) : Fits e t := by
  unfold Expression.operator at h
  dsimp only at h
  split_ifs at h
  · cases h
    exact ⟨trivial, nofun⟩
  · cases h
    exact ⟨trivial, nofun⟩
  · cases h
    exact ⟨trivial, nofun⟩

theorem fits_word (h : Spelling.IsRun e.operator run) (hop : e.operator run = none) :
    Fits e (.word run.flatten) :=
  ⟨⟨run, h, hop, rfl⟩, nofun⟩

theorem fits_bracket (h : e.createItem.succeeds us = true ∧ PlainAll e.createItem.operator us) :
    Fits e (.bracket us) := by
  refine ⟨h.2, fun vs hvs => ?_⟩
  obtain rfl : us = vs := Token.bracket.inj hvs
  exact h.1

theorem isRun_append (h : cs = [] ∨ Spelling.IsRun e.operator cs ∧ e.operator cs = none)
    (hs : c ∉ seperators) (hc : Parser.IsWhole c)
    (h0 : e.operator [] = none) : Spelling.IsRun e.operator (cs ++ [c]) := by
  refine ⟨by simp, ?_, ?_⟩
  · intro d hd
    rcases List.mem_append.mp hd with hd | hd
    · rcases h with rfl | ⟨h, -⟩
      · cases hd
      · exact h.2.1 d hd
    · obtain rfl : d = c := by simpa using hd
      exact ⟨hs, hc⟩
  · intro k hk
    have hk : k ≤ cs.length := Nat.le_of_lt_succ (by simpa using hk)
    rw [List.take_append_of_le_length hk]
    rcases h with rfl | ⟨h, hnone⟩
    · simpa using h0
    · rcases Nat.lt_or_eq_of_le hk with hk | rfl
      · exact h.2.2 k hk
      · rwa [List.take_length]

theorem resultGood_readRun (h : Sound e ts) (hrun : Spelling.IsRun e.operator run) :
    ResultGood e (readRun e ts run) := by
  unfold readRun
  cases hop : e.operator run with
  | none => exact ⟨h, hrun, hop⟩
  | some t => exact resultGood_push h (fits_operator hop) fun us hus => hus

theorem resultGood_readToken (h : Sound e ts) (hc : Parser.IsWhole c) (h0 : e.operator [] = none) :
    ResultGood e (readToken e ts c) := by
  unfold readToken
  by_cases hs : c ∈ seperators
  · rw [if_neg (by simpa using hs)]
    split_ifs
    · exact resultGood_push (t := .not) h ⟨trivial, nofun⟩ fun us hus => hus
    · exact resultGood_push (t := .and) h ⟨trivial, nofun⟩ fun us hus => hus
    · exact resultGood_push (t := .or) h ⟨trivial, nofun⟩ fun us hus => hus
    · exact ⟨h, trivial⟩
    · exact resultGood_stop h c
  · rw [if_pos hs]
    exact resultGood_readRun h (isRun_append (Or.inl rfl) hs hc h0)

theorem resultGood_readNext (h : Sound e ts) (hc : Parser.IsWhole c) (h0 : e.operator [] = none) :
    ResultGood e (readNext e ts c) := by
  unfold readNext
  split_ifs
  · exact h
  · exact resultGood_readToken h hc h0

theorem resultGood_close (h : Sound e ts) (hus : Fits e (.bracket us)) (c : BString) :
    ResultGood e (close e ts us c) := by
  unfold close
  split_ifs
  · exact resultGood_push h hus fun us hus => hus
  · exact resultGood_stop h c

/-- The step lemma: a character leads from a good place to a good one. -/
theorem Good.read (hc : Parser.IsWhole c) : ∀ {r : Reader} {e : Expression},
    e.operator [] = none → r.Good e →
    ResultGood e (Reader.read e r c)
  | .start, e, h0, _ => by
    unfold Reader.read
    split_ifs
    · trivial
    · exact resultGood_readToken ⟨trivial, [], rfl⟩ hc h0
  | .ready ts, e, h0, h => resultGood_readNext h hc h0
  | .word ts run, e, h0, ⟨h, hrun, hop⟩ => by
    unfold Reader.read
    by_cases hs : c ∈ seperators
    · rw [if_neg (by simpa using hs)]
      exact resultGood_push h (fits_word hrun hop) fun us hus => resultGood_readNext hus hc h0
    · rw [if_pos hs]
      exact resultGood_readRun h (isRun_append (Or.inr ⟨hrun, hop⟩) hs hc h0)
  | .bracket ts inner, e, h0, ⟨h, hinner⟩ => by
    have ih := Good.read hc (r := inner) (e := e.createItem) h0 hinner
    unfold Reader.read
    cases hread : Reader.read e.createItem inner c with
    | error f =>
      rw [hread] at ih
      exact ih
    | ok result =>
      rw [hread] at ih
      cases result with
      | reading inner' => exact ⟨h, ih⟩
      | succeeded us b =>
        cases b with
        | true => exact ⟨h, fits_bracket ih⟩
        | false => exact resultGood_close h (fits_bracket ih) c
      | failed => exact resultGood_stop h c
  | .closing ts us, e, _, ⟨h, hus⟩ => resultGood_close h hus c

/-- What the end of the text comes to is as good. -/
def EndGood (e : Expression) : Except Failure (Option (List Token)) → Prop
  | .ok (some ts) => e.succeeds ts = true ∧ PlainAll e.operator ts
  | .ok none => True
  | .error f => f = .dereferenced

theorem endGood_finish (h : Sound e ts) : EndGood e (.ok (finish e ts)) := by
  unfold finish
  split_ifs with hs
  · exact ⟨hs, h.1⟩
  · trivial

theorem Good.eof : ∀ {r : Reader} {e : Expression}, r.Good e → EndGood e (Reader.eof e r)
  | .start, _, _ => trivial
  | .ready ts, _, h => endGood_finish h
  | .word ts run, e, ⟨⟨hplain, stack, hfeed⟩, hrun, hop⟩ => by
    have ht := fits_word hrun hop
    unfold Reader.eof
    rw [push_eq hfeed]
    cases hpush : (Token.word run.flatten).feed e stack with
    | error f => exact feed_error ht hpush
    | ok stack' =>
      refine endGood_finish ⟨(plainAll_append e.operator ts _).mpr ⟨hplain, ht.1, trivial⟩,
        stack', ?_⟩
      rw [feedTokens_push hfeed, hpush]
  | .bracket ts inner, e, ⟨h, hinner⟩ => by
    have ih := Good.eof (r := inner) (e := e.createItem) hinner
    unfold Reader.eof
    cases heof : Reader.eof e.createItem inner with
    | error f =>
      rw [heof] at ih
      exact ih
    | ok result => exact endGood_finish h
  | .closing ts us, _, ⟨h, _⟩ => endGood_finish h

/-- The run lemma: what is read from a good place is good. -/
theorem Good.readAll (h0 : e.operator [] = none) : ∀ {cs : List BString} {r : Reader},
    (∀ c ∈ cs, Parser.IsWhole c) → r.Good e →
    EndGood e (Reader.readAll e r cs)
  | [], r, _, hr => hr.eof
  | c :: cs, r, hcs, hr => by
    obtain ⟨hc, hcs⟩ := List.forall_mem_cons.mp hcs
    have hstep := hr.read hc h0
    rw [Reader.readAll]
    cases hread : Reader.read e r c with
    | error f =>
      rw [hread] at hstep
      exact hstep
    | ok result =>
      rw [hread] at hstep
      cases result with
      | reading r' => exact Good.readAll h0 hcs hstep
      | succeeded ts b => exact hstep
      | failed => trivial

theorem Reads.good (h0 : e.operator [] = none) : ∀ {cs : List BString} {r : Reader},
    Reads e r cs r' → (∀ c ∈ cs, Parser.IsWhole c) →
    r.Good e → r'.Good e
  | [], _, h, _, hr => by
    obtain rfl : _ = r' := h
    exact hr
  | c :: cs, r, ⟨r₁, hread, h⟩, hcs, hr => by
    obtain ⟨hc, hcs⟩ := List.forall_mem_cons.mp hcs
    have hstep := hr.read hc h0
    rw [hread] at hstep
    exact h.good h0 hcs hstep

/-! ### A bracket that does not end -/

theorem readAll_reading {c : BString} {cs : List BString}
    (h : Reader.read e r c = .ok (.reading r')) :
    Reader.readAll e r (c :: cs) = Reader.readAll e r' cs := by
  rw [Reader.readAll, h]
  rfl

theorem readAll_succeeded {c : BString} {b : Bool} (h : Reader.read e r c = .ok (.succeeded ts b))
    (cs : List BString) :
    Reader.readAll e r (c :: cs) = .ok (some ts) := by
  rw [Reader.readAll, h]
  rfl

/-- Without a closing parenthesis the bracket is left out, unless what is in it
fails. -/
theorem readAll_unclosed (h0 : e.operator [] = none) (hs : e.succeeds ts = true)
    {cs : List BString} :
    ∀ {r : Reader}, (∀ c ∈ cs, Parser.IsWhole c ∧ c ≠ text ")") →
      ((∃ inner, r = .bracket ts inner) ∨ ∃ us, r = .closing ts us) →
      r.Good e → Reader.readAll e r cs = .ok (some ts) ∨ Reader.readAll e r cs =
        .error .dereferenced := by
  induction cs with
  | nil =>
    intro r _ hr hgood
    have hend := hgood.eof
    rw [Reader.readAll]
    rcases hr with ⟨inner, rfl⟩ | ⟨us, rfl⟩
    · unfold Reader.eof at hend ⊢
      cases heof : Reader.eof e.createItem inner with
      | error f =>
        rw [heof] at hend
        exact Or.inr (congrArg Except.error hend)
      | ok result =>
        left
        show Except.ok (finish e ts) = _
        rw [finish, if_pos hs]
    · left
      show Except.ok (finish e ts) = _
      rw [finish, if_pos hs]
  | cons c cs ih =>
    intro r hcs hr hgood
    obtain ⟨⟨hc, hclose⟩, hcs⟩ := List.forall_mem_cons.mp hcs
    have hstep := hgood.read hc h0
    have hstop : ∀ us, Reader.close e ts us c = .ok (.succeeded ts (c == text "$")) := by
      intro us
      rw [close, if_neg hclose, stop, if_pos hs]
      rfl
    rcases hr with ⟨inner, rfl⟩ | ⟨us, rfl⟩
    · cases hread : Reader.read e.createItem inner c with
      | error f =>
        have hbracket : Reader.read e (.bracket ts inner) c = .error f := by
          rw [Reader.read, hread]
          rfl
        rw [hbracket] at hstep
        obtain rfl : f = .dereferenced := hstep
        right
        rw [Reader.readAll, hbracket]
        rfl
      | ok result =>
        cases result with
        | reading inner' =>
          have hbracket :
              Reader.read e (.bracket ts inner) c = .ok (.reading (.bracket ts inner')) := by
            rw [Reader.read, hread]
            rfl
          rw [hbracket] at hstep
          rw [readAll_reading hbracket]
          exact ih hcs (Or.inl ⟨inner', rfl⟩) hstep
        | succeeded us b =>
          cases b with
          | true =>
            have hbracket :
                Reader.read e (.bracket ts inner) c = .ok (.reading (.closing ts us)) := by
              rw [Reader.read, hread]
              rfl
            rw [hbracket] at hstep
            rw [readAll_reading hbracket]
            exact ih hcs (Or.inr ⟨us, rfl⟩) hstep
          | false =>
            have hbracket :
                Reader.read e (.bracket ts inner) c = .ok (.succeeded ts (c == text "$")) := by
              rw [Reader.read, hread]
              exact hstop us
            exact Or.inl (readAll_succeeded hbracket cs)
        | failed =>
          have hbracket :
              Reader.read e (.bracket ts inner) c = .ok (.succeeded ts (c == text "$")) := by
            rw [Reader.read, hread]
            show Except.ok (stop e ts c) = _
            rw [stop, if_pos hs]
          exact Or.inl (readAll_succeeded hbracket cs)
    · have hclosing : Reader.read e (.closing ts us) c = .ok (.succeeded ts (c == text "$")) := by
        rw [Reader.read]
        exact hstop us
      exact Or.inl (readAll_succeeded hclosing cs)

end Reader

/-! ### Parsing a spelling -/

open Spelling Reader

variable {e : Expression}

theorem operator_nil (hl : LowersAscii e.toLower) : e.operator [] = none := by
  obtain ⟨h1, h2, h3⟩ := hl.operator
  unfold Expression.operator
  rw [h1, h2, h3]
  rfl

/-- What is parsed has been read, succeeds and has plain words only. -/
theorem parse_object (e : Expression) (hl : LowersAscii e.toLower) (query : BString) : ∃ n₀, ∀ fuel,
    n₀ ≤ fuel → ∀ object,
    e.parse fuel query = .ok object → feedTokens e [] object.tokens = .ok object.stack ∧
      object.stack.success = true ∧
      Token.PlainAll e.operator object.tokens := by
  obtain ⟨n₀, hn₀⟩ := parseRest_eq hl (Parser.characters query) (shows_matcher e)
  refine ⟨n₀, fun fuel hn object h => ?_⟩
  rw [parse_eq_parseRest, hn₀ fuel hn] at h
  unfold Expression.reported at h
  cases hread : readAll e .start (Parser.characters query) with
  | error f =>
    rw [hread] at h
    cases h
  | ok result =>
    rw [hread] at h
    cases result with
    | none => cases h
    | some us =>
      cases hfeed : feedTokens e [] us with
      | error f =>
        simp only [hfeed] at h
        cases h
      | ok stack =>
        simp only [hfeed] at h
        obtain rfl : ⟨e, us, stack⟩ = object := Run.ok_inj.mp h
        have hgood := Good.readAll (operator_nil hl) (show ∀ c ∈ Parser.characters query,
          Parser.IsWhole c from
          fun c hc => (Parser.isWhole_of_mem hc).1) (show Reader.start.Good e from trivial)
        rw [hread] at hgood
        obtain ⟨hs, hplain⟩ := hgood
        rw [Expression.succeeds, hfeed] at hs
        exact ⟨hfeed, hs, hplain⟩

theorem whole_seperator : ∀ c ∈ seperators, Parser.IsWhole c := by
  intro c hc
  have hall : ∀ c ∈ seperators, c = [c.headI] ∧ c.headI < 128 := by decide
  obtain ⟨he, hb⟩ := hall c hc
  rw [he]
  exact Parser.isWhole_ascii hb

mutual

theorem whole_characters : ∀ {t : Spelling}, t.Valid e.operator → ∀ c ∈ t.characters,
    Parser.IsWhole c
  | .run _, h, c, hc => (h.2.1 c hc).2
  | .symbol k, h, c, hc => by
    have hall : ∀ k ∈ [text "!", text "+", text "|"], k ∈ seperators := by decide
    obtain rfl : c = k := by simpa [Spelling.characters] using hc
    exact whole_seperator c (hall c h)
  | .bracket items last dollar, h, c, hc => by
    have hitems := whole_charactersAll h.1
    simp only [Spelling.characters, List.mem_cons, List.mem_append, List.not_mem_nil,
      or_false] at hc
    rcases hc with rfl | ((hc | hc) | hc) | rfl
    · exact whole_seperator _ (by decide)
    · exact hitems c hc
    · exact whole_seperator c (blank_seperator c (h.2 c hc))
    · cases dollar with
      | false => simp at hc
      | true =>
        obtain rfl : c = text "$" := by simpa using hc
        exact whole_seperator _ (by decide)
    · exact whole_seperator _ (by decide)

theorem whole_charactersAll : ∀ {items : List (List BString × Spelling)},
    ValidAll e.operator items →
    ∀ c ∈ charactersAll items, Parser.IsWhole c
  | [], _, c, hc => by cases hc
  | (before, t) :: items, h, c, hc => by
    obtain ⟨hbefore, ht, -, hitems⟩ := h
    rw [charactersAll] at hc
    rcases List.mem_append.mp hc with hc | hc
    · rcases List.mem_append.mp hc with hc | hc
      · exact whole_seperator c (blank_seperator c (hbefore c hc))
      · exact whole_characters ht c hc
    · exact whole_charactersAll hitems c hc

end

/-- The text of a spelling is read up to its last blank. -/
theorem reads_text (hl : LowersAscii e.toLower) (items : List (List BString × Spelling))
    (hitems : ValidAll e.operator items)
    (last : List BString) (hlast : ∀ c ∈ last, c ∈ blanks) (tail : BString) {stack : Items}
    (hfeed : feedTokens e [] (Spelling.tokens e.operator items) = .ok stack) :
    ∃ (r : Reader) (n₀ : ℕ),
      Ends e (Spelling.tokens e.operator items) r ∧ r.Good e ∧ ∀ fuel, n₀ ≤ fuel →
        e.parse fuel ((charactersAll items ++ last).flatten ++ tail) = e.reported
          (readAll e r (Parser.characters tail)) := by
  have hwhole : ∀ c ∈ charactersAll items ++ last, Parser.IsWhole c := by
    intro c hc
    rcases List.mem_append.mp hc with hc | hc
    · exact whole_charactersAll hitems c hc
    · exact whole_seperator c (blank_seperator c (hlast c hc))
  obtain ⟨n₀, hn₀⟩ :=
    parseRest_eq hl (Parser.characters ((charactersAll items ++ last).flatten ++ tail))
    (shows_matcher e)
  obtain ⟨r₁, h₁, hends⟩ := reads_tokens items hitems After.start hfeed
  obtain ⟨r₂, h₂, hends⟩ := hends.blanks hlast
  have hgood := (h₁.append h₂).good (operator_nil hl) hwhole trivial
  refine ⟨r₂, n₀, hends, hgood, fun fuel hn => ?_⟩
  rw [parse_eq_parseRest, hn₀ fuel hn, Parser.characters_append hwhole, (h₁.append h₂).readAll]

/-- **A spelling is parsed as its tokens.** The text may go on after a dollar,
a semicolon or a closing parenthesis. -/
theorem parse_of_spelled (e : Expression) (hl : LowersAscii e.toLower)
    (items : List (List BString × Spelling))
    (hitems : ValidAll e.operator items) (last : List BString) (hlast : ∀ c ∈ last, c ∈ blanks)
    (tail : BString)
    (htail : ∀ b ∈ tail.head?, b ∈ text ")$;") {stack : Items}
    (hfeed : feedTokens e [] (Spelling.tokens e.operator items) = .ok stack)
    (hs : stack.success = true) : ∃ n₀, ∀ fuel, n₀ ≤ fuel →
      e.parse fuel ((charactersAll items ++ last).flatten ++ tail) =
        .ok ⟨e, Spelling.tokens e.operator items, stack⟩ := by
  have hsucceeds : e.succeeds (Spelling.tokens e.operator items) = true := by
    rw [Expression.succeeds, hfeed]
    exact hs
  have hstops : ∀ c ∈ (Parser.characters tail).head?, c ∈ stops := by
    cases tail with
    | nil =>
      rw [Parser.characters]
      simp
    | cons b tail =>
      have hall : ∀ b ∈ text ")$;", b < 128 ∧ [b] ∈ stops := BString.forall_of_all (by decide)
      obtain ⟨hb, hmem⟩ := hall b (htail b rfl)
      rw [show b :: tail = [b] ++ tail from rfl, Parser.characters_whole (Parser.isWhole_ascii hb)]
      simpa using hmem
  obtain ⟨r, n₀, hends, -, hn₀⟩ := reads_text hl items hitems last hlast tail hfeed
  refine ⟨n₀, fun fuel hn => ?_⟩
  rw [hn₀ fuel hn, hends.readAll hstops, finish, if_pos hsucceeds, Expression.reported_some hfeed]

/-- **A spelling is parsed as its tokens exactly when the expression succeeds
with them.** -/
theorem Expression.parse_spelled (e : Expression) (hl : LowersAscii e.toLower)
    (items : List (List BString × Spelling))
    (hitems : ValidAll e.operator items) (last : List BString) (hlast : ∀ c ∈ last, c ∈ blanks)
    (tail : BString)
    (htail : ∀ b ∈ tail.head?, b ∈ text ")$;") : ∃ n₀, ∀ fuel, n₀ ≤ fuel →
      ((∃ stack, e.parse fuel ((charactersAll items ++ last).flatten ++ tail) =
        .ok ⟨e, Spelling.tokens e.operator items, stack⟩) ↔
        ∃ stack, feedTokens e [] (Spelling.tokens e.operator items) = .ok stack ∧
          stack.success = true) := by
  obtain ⟨n₀, hn₀⟩ := parse_object e hl ((charactersAll items ++ last).flatten ++ tail)
  by_cases h : ∃ stack, feedTokens e [] (Spelling.tokens e.operator items) = .ok stack ∧
    stack.success = true
  · obtain ⟨stack, hfeed, hs⟩ := h
    obtain ⟨n₂, hn₂⟩ := parse_of_spelled e hl items hitems last hlast tail htail hfeed hs
    exact ⟨n₂, fun fuel hn => ⟨fun _ => ⟨stack, hfeed, hs⟩, fun _ => ⟨stack, hn₂ fuel hn⟩⟩⟩
  · refine ⟨n₀, fun fuel hn => ⟨?_, fun h' => absurd h' h⟩⟩
    rintro ⟨stack, hparse⟩
    obtain ⟨hfeed, hs, -⟩ := hn₀ fuel hn _ hparse
    exact ⟨stack, hfeed, hs⟩

theorem Expression.parse_spelled_or : ∃ n₀, ∀ fuel, n₀ ≤ fuel →
    let e := Expression.open id .create [] []
    ((∃ stack, e.parse fuel (text "a| b ") =
      .ok ⟨e, [.word (text "a"), .or, .word (text "b")], stack⟩) ↔
      ∃ stack, feedTokens e [] [.word (text "a"), .or, .word (text "b")] = .ok stack ∧
        stack.success = true) := by
  have hone : ∀ b : BString, b ∈ [text "a", text "b"] →
    IsRun (Expression.open id .create [] []).operator [b] := by
    intro b hb
    have hall : ∀ b ∈ [text "a", text "b"], b ∉ seperators ∧ b = [b.headI] ∧ b.headI < 128 := by
      decide
    obtain ⟨hs, he, hlt⟩ := hall b hb
    refine ⟨by simp, ?_, ?_⟩
    · intro c hc
      obtain rfl : c = b := by simpa using hc
      exact ⟨hs, he ▸ Parser.isWhole_ascii hlt⟩
    · intro k hk
      obtain rfl : k = 0 := by simpa using hk
      rfl
  have hor : text "|" ∈ [text "!", text "+", text "|"] := by decide
  exact Expression.parse_spelled (Expression.open id .create [] []) (fun _ _ => rfl)
    [([], .run [text "a"]), ([], .symbol (text "|")), ([text " "], .run [text "b"])]
    ⟨by simp, hone _ (by decide), by decide, by simp, hor, by decide, by decide,
      hone _ (by decide), by decide, trivial⟩
    [text " "] (by decide) [] (by simp)

/-- **The words that are parsed are plain**: whatever the text, every word among
the tokens, at any depth, is a run of word characters that begins with no
operator, in any case of its letters. -/
theorem Expression.parse_plain (e : Expression) (hl : LowersAscii e.toLower) (query : BString) :
    ∃ n₀, ∀ fuel, n₀ ≤ fuel → ∀ object,
    e.parse fuel query = .ok object → object.stack.success = true ∧
      Token.PlainAll e.operator object.tokens := by
  obtain ⟨n₀, hn₀⟩ := parse_object e hl query
  exact ⟨n₀, fun fuel hn object h => (hn₀ fuel hn object h).2⟩

theorem Expression.parse_plain_id : ∃ n₀, ∀ fuel, n₀ ≤ fuel → ∀ object,
    let e := Expression.open id .create [] []
    e.parse fuel (text "a or b") = .ok object → object.stack.success = true ∧
      Token.PlainAll e.operator object.tokens :=
  Expression.parse_plain (Expression.open id .create [] []) (fun _ _ => rfl) (text "a or b")

/-- **A bracket that is not closed is left out.** What comes before it is parsed
on its own, whatever characters the bracket begins, unless something in it makes the
expression use an operand that is none. -/
theorem Expression.parse_unclosed (e : Expression) (hl : LowersAscii e.toLower)
    (items : List (List BString × Spelling))
    (hitems : ValidAll e.operator items) (last : List BString) (hlast : ∀ c ∈ last, c ∈ blanks)
    {stack : Items}
    (hfeed : feedTokens e [] (Spelling.tokens e.operator items) = .ok stack)
    (hs : stack.success = true)
    {rest : List BString} (hrest : Utf8.IsText rest) (hclose : text ")" ∉ rest) : ∃ n₀, ∀ fuel,
      n₀ ≤ fuel →
      let query := (charactersAll items ++ last).flatten ++ (text "(" ++ rest.flatten)
      e.parse fuel query = .ok ⟨e, Spelling.tokens e.operator items, stack⟩ ∨ e.parse fuel query =
        .fail .dereferenced := by
  have hsucceeds : e.succeeds (Spelling.tokens e.operator items) = true := by
    rw [Expression.succeeds, hfeed]
    exact hs
  have hcharacters : Parser.characters rest.flatten = rest := Parser.characters_text hrest
  have hopen : Parser.characters (text "(" ++ rest.flatten) = text "(" :: rest := by
    rw [Parser.characters_whole (whole_seperator _ (by decide)), hcharacters]
  have hwhole : ∀ c ∈ rest, Parser.IsWhole c ∧ c ≠ text ")" := by
    intro c hc
    rw [← hcharacters] at hc
    refine ⟨(Parser.isWhole_of_mem hc).1, ?_⟩
    rintro rfl
    exact hclose (hcharacters ▸ hc)
  obtain ⟨r, n₀, hends, hgood, hn₀⟩ :=
    reads_text hl items hitems last hlast (text "(" ++ rest.flatten) hfeed
  obtain ⟨r', hr', hread⟩ := hends.read (c := text "(") (by decide)
  obtain ⟨r₁, hr₁, rfl⟩ := reads_open (e := e) hr'
  have hstep := hread.trans hr₁
  have hgood' := hgood.read (c := text "(") (whole_seperator _ (by decide)) (operator_nil hl)
  rw [hstep] at hgood'
  refine ⟨n₀, fun fuel hn => ?_⟩
  dsimp only
  rw [hn₀ fuel hn, hopen, readAll, hstep]
  rcases readAll_unclosed (operator_nil hl) hsucceeds hwhole (Or.inl ⟨_, rfl⟩) hgood' with h | h
  · left
    exact (congrArg e.reported h).trans (Expression.reported_some hfeed)
  · exact Or.inr (congrArg e.reported h)

/-- `a (b` is parsed as `a`. -/
theorem Expression.parse_unclosed_a : ∃ n₀, ∀ fuel, n₀ ≤ fuel →
    let e := Expression.open id .create [] []
    (∃ stack, e.parse fuel (text "a (b") = .ok ⟨e, [.word (text "a")], stack⟩) ∨
      e.parse fuel (text "a (b") = .fail .dereferenced := by
  have hrun : IsRun (Expression.open id .create [] []).operator [text "a"] := by
    refine ⟨by simp, ?_, ?_⟩
    · intro c hc
      obtain rfl : c = text "a" := by simpa using hc
      exact ⟨by decide, Parser.isWhole_ascii (by decide)⟩
    · intro k hk
      obtain rfl : k = 0 := by simpa using hk
      rfl
  have hrest : Utf8.IsText [text "b"] := fun c hc => by
    obtain rfl := List.mem_singleton.mp hc
    exact Utf8.isChar_ascii (by decide)
  obtain ⟨n₀, hn₀⟩ := Expression.parse_unclosed (Expression.open id .create [] []) (fun _ _ => rfl)
    [([], .run [text "a"])] ⟨by simp, hrun, by decide, trivial⟩ [text " "] (by decide) rfl rfl hrest
      (by decide)
  exact ⟨n₀, fun fuel hn => (hn₀ fuel hn).imp_left fun h => ⟨_, h⟩⟩

end BeeFish
