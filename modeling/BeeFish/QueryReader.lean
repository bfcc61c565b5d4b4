/-
# How a query is read

What the matcher of an expression does with each character, without the
matchers that have already failed. A `Reader` is where the matcher is in the
text: before the first token, after a token, in a word, in a bracket, or
before the end of a bracket whose expression has ended with a dollar. `Shows`
says which matcher is in which place, and a character of a token takes a
matcher to where it takes the reader.

Key definitions: `Reader`, `Reader.read`, `Shows`.
-/
import BeeFish.Query
import BeeFish.QueryToken
import BeeFish.Scan

namespace BeeFish

open QueryGrammar
open Match (goOn goOn_nil andLoop_more andLoop_again andLoop_failed andLoop_last andLoop_taken
  andLoop_next
  orLoop_failed orLoop_more orLoop_found matches_or_found matches_or_none)

/-! ### The reader -/

inductive Reader where
  /-- no token yet -/
  | start
  /-- after the last token -/
  | ready (tokens : List Token)
  /-- in a word -/
  | word (tokens : List Token) (run : List BString)
  /-- in a bracket -/
  | bracket (tokens : List Token) (inner : Reader)
  /-- after the dollar of the expression in a bracket -/
  | closing (tokens inner : List Token)

/-- What a character leads to: the reader goes on, or it has succeeded, with or
without the character, or failed. -/
inductive ReadResult where
  | reading (reader : Reader)
  | succeeded (tokens : List Token) (matched : Bool)
  | failed

namespace Expression

/-- The tokens with one more, which is fed to the expression. -/
def push (e : Expression) (tokens : List Token) (t : Token) : Except Failure (List Token) :=
  (feedTokens e [] (tokens ++ [t])).map fun _ => tokens ++ [t]

/-- The expression succeeds with the tokens. -/
def succeeds (e : Expression) (tokens : List Token) : Bool :=
  match feedTokens e [] tokens with
  | .ok stack => stack.success
  | .error _ => false

end Expression

namespace Reader

open Expression

/-- The next token fails. -/
def stop (e : Expression) (tokens : List Token) (c : BString) : ReadResult :=
  if e.succeeds tokens then .succeeded tokens (c == text "$") else .failed

def readRun (e : Expression) (tokens : List Token) (run : List BString) :
    Except Failure ReadResult :=
  match e.operator run with
  | some t => do
    let tokens ← e.push tokens t
    return .reading (.ready tokens)
  | none => return .reading (.word tokens run)

/-- The first character of a token, no blank. -/
def readToken (e : Expression) (tokens : List Token) (c : BString) : Except Failure ReadResult :=
  if c ∉ seperators then readRun e tokens [c]
  else if c = text "!" then do
    let tokens ← e.push tokens .not
    return .reading (.ready tokens)
  else if c = text "+" then do
    let tokens ← e.push tokens .and
    return .reading (.ready tokens)
  else if c = text "|" then do
    let tokens ← e.push tokens .or
    return .reading (.ready tokens)
  else if c = text "(" then return .reading (.bracket tokens .start)
  else return stop e tokens c

/-- After a token. -/
def readNext (e : Expression) (tokens : List Token) (c : BString) : Except Failure ReadResult :=
  if c ∈ blanks then return .reading (.ready tokens) else readToken e tokens c

/-- After the expression of a bracket. -/
def close (e : Expression) (tokens inner : List Token) (c : BString) : Except Failure ReadResult :=
  if c = text ")" then do
    let tokens ← e.push tokens (.bracket inner)
    return .reading (.ready tokens)
  else return stop e tokens c

def read (e : Expression) : Reader → BString → Except Failure ReadResult
  | start, c => if c ∈ blanks then return .reading .start else readToken e [] c
  | ready tokens, c => readNext e tokens c
  | word tokens run, c =>
    if c ∉ seperators then readRun e tokens (run ++ [c])
    else do
      let tokens ← e.push tokens (.word run.flatten)
      readNext e tokens c
  | bracket tokens inner, c => do
    match ← read e.createItem inner c with
    | .reading inner => return .reading (.bracket tokens inner)
    | .succeeded inner true => return .reading (.closing tokens inner)
    | .succeeded inner false => close e tokens inner c
    | .failed => return stop e tokens c
  | closing tokens inner, c => close e tokens inner c

/-- The tokens if the expression succeeds with them. -/
def finish (e : Expression) (tokens : List Token) : Option (List Token) :=
  if e.succeeds tokens then some tokens else none

/-- The end of the text. -/
def eof (e : Expression) : Reader → Except Failure (Option (List Token))
  | start => return none
  | ready tokens => return finish e tokens
  | word tokens run => do
    let tokens ← e.push tokens (.word run.flatten)
    return finish e tokens
  | bracket tokens inner => do
    let _ ← eof e.createItem inner
    return finish e tokens
  | closing tokens _ => return finish e tokens

/-- The rest of the text. -/
def readAll (e : Expression) (r : Reader) : List BString → Except Failure (Option (List Token))
  | [] => eof e r
  | c :: cs => do
    match ← read e r c with
    | .reading r => readAll e r cs
    | .succeeded tokens _ => return some tokens
    | .failed => return none

end Reader

/-! ### The places of the matcher -/

def dollar : QueryMatch := .optional (.character (some (text "$")) none) none

/-- The matcher of an expression that has been fed some tokens, at the next
one. -/
def expressionAt (e : Expression) (tokens : List Token) (stack : Items) (b : QueryMatch) (count : ℕ)
    (item : QueryMatch) :
    QueryMatch :=
  .object ⟨e, tokens, stack⟩
    (.and [b, .repeated (tokenAndBlankspace e) (some item) 1 0 count none, dollar] 1 none) none

/-- The matcher is where the reader is. -/
def Shows (e : Expression) : Reader → QueryMatch → Prop
  | .start, m => ∃ n, m = .object ⟨e, [], []⟩
    (.and [blanksAt n, QueryGrammar.tokens e, dollar] 0 none) none
  | .ready ts, m => ∃ stack b count token n, feedTokens e [] ts = .ok stack ∧
      m = expressionAt e ts stack b count (.and [token, blanksAt n] 1 none)
  | .word ts run, m =>
    ∃ stack b count token, feedTokens e [] ts = .ok stack ∧ run ≠ [] ∧ TokenAt e run token ∧
      m = expressionAt e ts stack b count (.and [token, blankspaces] 0 none)
  | .bracket ts inner, m =>
    ∃ stack b count token item, feedTokens e [] ts = .ok stack ∧ (count = 0 → ts = []) ∧
      BracketAt (bracketAt e 1 item) token ∧
        Shows e.createItem inner (item.getD e.createItem.matcher) ∧
      m = expressionAt e ts stack b count (.and [token, blankspaces] 0 none)
  | .closing ts us, m =>
    ∃ stack b count token inner k, feedTokens e [] ts = .ok stack ∧ (count = 0 → ts = []) ∧
      BracketAt (bracketAt e 2 (some (.object ⟨e.createItem, us, inner⟩ k (some true)))) token ∧
      feedTokens e.createItem [] us = .ok inner ∧ inner.success = true ∧
      m = expressionAt e ts stack b count (.and [token, blankspaces] 0 none)

theorem shows_matcher (e : Expression) : Shows e .start e.matcher := ⟨0, rfl⟩

theorem Shows.result {e : Expression} {r : Reader} {m : QueryMatch} (h : Shows e r m) :
    m.result = none := by
  cases r with
  | start => obtain ⟨n, rfl⟩ := h; rfl
  | ready ts => obtain ⟨_, _, _, _, _, _, rfl⟩ := h; rfl
  | word ts run => obtain ⟨_, _, _, _, _, _, _, rfl⟩ := h; rfl
  | bracket ts inner => obtain ⟨_, _, _, _, _, _, _, _, _, rfl⟩ := h; rfl
  | closing ts us => obtain ⟨_, _, _, _, _, _, _, _, _, _, _, rfl⟩ := h; rfl

/-- What the character comes to for the object of an expression. -/
def ObjectOK (e : Expression) (x : Except Failure ReadResult)
    (run : Run Failure (Match.Matched Expression ExpressionObject TokenCall)) :
    Prop :=
  match x with
  | .error f => run = .fail f
  | .ok (.reading r) => ∃ m, run = .ok (m, true, []) ∧ Shows e r m
  | .ok (.succeeded ts b) => ∃ k stack, run = .ok (.object ⟨e, ts, stack⟩ k (some true), b, []) ∧
      feedTokens e [] ts = .ok stack ∧ stack.success = true
  | .ok .failed => ∃ m b, run = .ok (m, b, []) ∧ m.result = some false

/-- The calls made for an object. -/
def calling (object : ExpressionObject) (calls : List (TokenCall × QueryMatch)) :
    Except Failure ExpressionObject :=
  calls.foldlM (fun self call => queryProgram.onsuccess call.1 call.2 self) object

/-- The same for what the object matches. -/
def LevelOK (e : Expression) (object : ExpressionObject) (x : Except Failure ReadResult)
    (m : QueryMatch) (b : Bool)
    (calls : List (TokenCall × QueryMatch)) : Prop :=
  match x with
  | .error f => calling object calls = .error f
  | .ok (.reading r) => ∃ object', calling object calls = .ok object' ∧ b = true ∧ m.result = none ∧
      Shows e r (.object object' m none)
  | .ok (.succeeded ts b') =>
    ∃ stack, calling object calls = .ok ⟨e, ts, stack⟩ ∧ m.result = some true ∧ b = b' ∧
      feedTokens e [] ts = .ok stack ∧ stack.success = true
  | .ok .failed => ∃ object', calling object calls = .ok object' ∧ m.result ≠ none ∧
      (m.result = some true → object'.stack.success = false)

variable {n : ℕ} {c : BString} {e : Expression}

theorem LevelOK.object {object : ExpressionObject} {x : Except Failure ReadResult}
    {m m' : QueryMatch} {b : Bool}
    {calls : List (TokenCall × QueryMatch)} (h : LevelOK e object x m' b calls)
    (hm : m.result = none)
    (hrun : m.matches_ queryProgram n c = .ok (m', b, calls)) :
    ObjectOK e x ((.object object m none : QueryMatch).matches_ queryProgram (n + 1) c) := by
  have hobject : (.object object m none : QueryMatch).matches_ queryProgram (n + 1) c = do
      let self ← .ofExcept (calling object calls)
      return (.object self m' (m'.result.map (· && self.stack.success)), b, []) := by
    rw [Match.matches_]
    have hnone : (.object object m none : QueryMatch).result = none := hm
    simp only [hnone, hrun, Run.ok_bind]
    rfl
  rw [hobject]
  rcases x with f | r | ⟨ts, b'⟩ | _
  · have h : calling object calls = .error f := h
    rw [h]
    rfl
  · obtain ⟨object', hcall, rfl, hnone, hshow⟩ := h
    rw [hcall, Run.ofExcept_ok, Run.ok_bind, hnone]
    exact ⟨_, rfl, hshow⟩
  · obtain ⟨stack, hcall, hres, rfl, hfeed, hsucc⟩ := h
    rw [hcall, Run.ofExcept_ok, Run.ok_bind, hres]
    exact ⟨m', stack, by simp [hsucc], hfeed, hsucc⟩
  · obtain ⟨object', hcall, hres, hfail⟩ := h
    rw [hcall, Run.ofExcept_ok, Run.ok_bind]
    refine ⟨_, b, rfl, ?_⟩
    cases hr : m'.result with
    | none => exact absurd hr hres
    | some result =>
      cases result with
      | false => simp [Match.result]
      | true => simp [Match.result, hfail hr]

/-! ### The next token -/

/-- A token that fails ends the tokens, with those before it. -/
theorem andLoop_stop (n fuel : ℕ) (x : QueryMatch) (start : Option QueryMatch) (count : ℕ)
    {item item' : QueryMatch} {b : Bool}
    (hstart : start.getD (tokenAndBlankspace e) = item)
    (hrun : item.matches_ queryProgram (n + 1) c = .ok (item', b, []))
    (hr : item'.result = some false) : ∃ m b',
    Match.andLoop (Match.matches_ queryProgram (n + 2) · c) (fuel + 2)
        [x, .repeated (tokenAndBlankspace e) start 1 0 count none, dollar] 1 = .ok (m, b', []) ∧
      if count = 0 then m.result = some false else m.result = some true ∧ b' = (c == text "$") := by
  have htokens : (.repeated (tokenAndBlankspace e) start 1 0 count none : QueryMatch).matches_
    queryProgram (n + 2) c =
      .ok (.repeated (tokenAndBlankspace e) (some item') 1 0 count (some (decide (1 ≤ count))),
        false, []) := by
    rw [Match.matches_, hstart]
    simp [hrun, hr]
  by_cases h0 : count = 0
  · subst h0
    exact ⟨_, _, andLoop_failed (fuel + 1) rfl htokens rfl, rfl⟩
  · have hcount : (decide (1 ≤ count)) = true := by simpa using Nat.one_le_iff_ne_zero.mpr h0
    rw [hcount] at htokens
    have hdollar : dollar.matches_ queryProgram (n + 2) c =
        .ok (.optional (.character (some (text "$")) (some (text "$" == c))) (some true),
          text "$" == c, []) := by
      unfold dollar
      simp [Match.matches_, Match.result, Match.setResult]
    refine ⟨_, _, (andLoop_next (fuel + 1) rfl htokens rfl (by simp)).trans
      ((goOn_nil _).trans (andLoop_last fuel rfl hdollar rfl (by simp))), ?_⟩
    rw [if_neg h0]
    exact ⟨rfl, by rw [Bool.beq_comm]⟩

theorem level_stop {ts : List Token} {stack : Items} {count : ℕ} {m : QueryMatch} {b : Bool}
    (hfeed : feedTokens e [] ts = .ok stack) (h0 : count = 0 → ts = [])
    (hm : if count = 0 then m.result = some false else m.result = some true ∧ b = (c == text "$")) :
    LevelOK e ⟨e, ts, stack⟩ (.ok (Reader.stop e ts c)) m b [] := by
  have hsucceeds : e.succeeds ts = stack.success := by rw [Expression.succeeds, hfeed]
  unfold Reader.stop
  by_cases hc : count = 0
  · rw [if_pos hc] at hm
    obtain rfl := h0 hc
    have hs : e.succeeds [] = false := rfl
    rw [hs, if_neg (by simp)]
    exact ⟨_, rfl, by simp [hm], by simp [hm]⟩
  · rw [if_neg hc] at hm
    obtain ⟨hm, rfl⟩ := hm
    by_cases hs : e.succeeds ts = true
    · rw [if_pos hs]
      exact ⟨stack, rfl, hm, rfl, hfeed, hsucceeds ▸ hs⟩
    · rw [if_neg hs]
      exact ⟨_, rfl, by simp [hm], fun _ => by rw [← hsucceeds]; simpa using hs⟩

theorem feedTokens_push {ts : List Token} {stack : Items} (hfeed : feedTokens e [] ts = .ok stack)
    (t : Token) :
    feedTokens e [] (ts ++ [t]) = t.feed e stack := by
  rw [feedTokens_append e ts [t] hfeed, feedTokens_singleton]

/-- The token is fed to the expression and read on from there. -/
theorem calling_push {ts : List Token} {stack : Items} (hfeed : feedTokens e [] ts = .ok stack)
    {t : Token}
    {calls : List (TokenCall × QueryMatch)} (h : Feeds e calls t) :
    (∃ f, e.push ts t = .error f ∧ calling ⟨e, ts, stack⟩ calls = .error f) ∨
      ∃ stack', e.push ts t = .ok (ts ++ [t]) ∧ feedTokens e [] (ts ++ [t]) = .ok stack' ∧
        calling ⟨e, ts, stack⟩ calls = .ok ⟨e, ts ++ [t], stack'⟩ := by
  have hcall : calling ⟨e, ts, stack⟩ calls = (t.feed e stack).map fun s => ⟨e, ts ++ [t], s⟩ :=
    h _ rfl
  have hpush : e.push ts t = (t.feed e stack).map fun _ => ts ++ [t] := by
    rw [Expression.push, feedTokens_push hfeed]
  rw [hcall, hpush, feedTokens_push hfeed]
  cases t.feed e stack with
  | error f => exact Or.inl ⟨f, rfl, rfl⟩
  | ok s => exact Or.inr ⟨s, rfl, rfl, rfl⟩

/-- What a token and the blanks after it come to with a character of the
token. -/
theorem matches_tokenAndBlankspace (n : ℕ) {t t' : QueryMatch} {b : Bool}
    {calls : List (TokenCall × QueryMatch)}
    (hrun : t.matches_ queryProgram (n + 3) c = .ok (t', b, calls)) :
    (t'.result = none → b = true → (.and [t, blankspaces] 0 none : QueryMatch).matches_ queryProgram
      (n + 4) c =
      .ok (.and [t', blankspaces] 0 none, true, calls)) ∧
    (t'.result = some false → (.and [t, blankspaces] 0 none : QueryMatch).matches_ queryProgram
      (n + 4) c =
      .ok (.and [t', blankspaces] 0 (some false), false, calls)) ∧
    (t'.result = some true → b = true → (.and [t, blankspaces] 0 none : QueryMatch).matches_
      queryProgram (n + 4) c =
      .ok (.and [t', blankspaces] 1 none, true, calls)) ∧
    (t'.result = some true → b = false → if c ∈ blanks then
      (.and [t, blankspaces] 0 none : QueryMatch).matches_ queryProgram (n + 4) c = .ok
      (.and [t', blanksAt 1] 1 none, true, calls)
      else ∃ k, (.and [t, blankspaces] 0 none : QueryMatch).matches_ queryProgram (n + 4) c =
        .ok (.and [t', k] 2 (some true), false, calls)) := by
  have hand : (.and [t, blankspaces] 0 none : QueryMatch).matches_ queryProgram (n + 4) c =
      Match.andLoop (Match.matches_ queryProgram (n + 3) · c) (n + 3) [t, blankspaces] 0 := by
    rw [Match.matches_]
    simp
  rw [hand]
  refine ⟨?_, ?_, ?_, ?_⟩
  · rintro hr rfl
    exact andLoop_more _ rfl hrun hr
  · intro hr
    exact andLoop_failed _ rfl hrun hr
  · rintro hr rfl
    exact andLoop_taken _ rfl hrun hr (by simp)
  · rintro hr rfl
    have hnext : Match.andLoop (Match.matches_ queryProgram (n + 3) · c) (n + 3)
      [t, blankspaces] 0 =
        goOn calls (Match.andLoop (Match.matches_ queryProgram (n + 3) · c) (n + 2)
          [t', blankspaces] 1) :=
      andLoop_next (n + 2) rfl hrun hr (by simp)
    have hcalls : ∀ m b, (goOn calls (.ok (m, b, [])) : Run Failure _) = .ok (m, b, calls) :=
      fun m b => by simp [goOn]
    split_ifs with hc
    · have hblank : Match.andLoop (Match.matches_ queryProgram (n + 3) · c) (n + 2)
        [t', blankspaces] 1 =
          .ok (.and [t', blanksAt 1] 1 none, true, []) :=
            andLoop_more (n + 1) rfl (matches_blank n 0 hc) rfl
      rw [hnext]
      exact (congrArg (goOn calls) hblank).trans (hcalls _ _)
    · obtain ⟨k, hk, hkr⟩ := matches_noBlank n 0 hc
      have hblank : Match.andLoop (Match.matches_ queryProgram (n + 3) · c) (n + 2)
        [t', blankspaces] 1 =
          .ok (.and [t', k] 2 (some true), false, []) := andLoop_last (n + 1) rfl hk hkr rfl
      rw [hnext]
      exact ⟨k, (congrArg (goOn calls) hblank).trans (hcalls _ _)⟩

/-- The tokens go on with an item that has no result. -/
theorem andLoop_tokens (n fuel : ℕ) {x item item' : QueryMatch} {start : Option QueryMatch}
    {count : ℕ}
    {calls : List (TokenCall × QueryMatch)} (hstart : start.getD (tokenAndBlankspace e) = item)
    (hrun : item.matches_ queryProgram n c = .ok (item', true, calls)) (hr : item'.result = none) :
    Match.andLoop (Match.matches_ queryProgram (n + 1) · c) (fuel + 1)
        [x, .repeated (tokenAndBlankspace e) start 1 0 count none, dollar] 1 =
      .ok (.and [x, .repeated (tokenAndBlankspace e) (some item') 1 0 count none, dollar] 1 none,
        true, calls) := by
  have htokens : (.repeated (tokenAndBlankspace e) start 1 0 count none : QueryMatch).matches_
    queryProgram (n + 1) c =
      .ok (.repeated (tokenAndBlankspace e) (some item') 1 0 count none, true, calls) := by
    rw [Match.matches_, hstart]
    simp [hrun, hr]
  exact andLoop_more fuel rfl htokens hr

theorem level_ready {ts : List Token} {stack : Items} (hfeed : feedTokens e [] ts = .ok stack)
    {t : Token}
    {calls : List (TokenCall × QueryMatch)} (hcalls : Feeds e calls t) (x t' : QueryMatch)
    (count k : ℕ) :
    LevelOK e ⟨e, ts, stack⟩ (do let ts ← e.push ts t; return .reading (.ready ts))
      (.and [x, .repeated (tokenAndBlankspace e) (some (.and [t', blanksAt k] 1 none))
        1 0 count none, dollar] 1 none)
      true calls := by
  rcases calling_push hfeed hcalls with ⟨f, hpush, hcall⟩ | ⟨stack', hpush, hfeed', hcall⟩
  · rw [hpush]
    exact hcall
  · rw [hpush]
    exact ⟨_, hcall, rfl, rfl, stack', x, count, t', k, hfeed', rfl⟩

/-- A token starts. -/
theorem level_token (hl : LowersAscii e.toLower) (n fuel : ℕ) (hc : c ∉ blanks) {ts : List Token}
    {stack : Items}
    (hfeed : feedTokens e [] ts = .ok stack) (count : ℕ) (h0 : count = 0 → ts = []) (x : QueryMatch)
    (start : Option QueryMatch)
    (hstart : start.getD (tokenAndBlankspace e) = tokenAndBlankspace e) : ∃ m b calls,
    Match.andLoop (Match.matches_ queryProgram (n + 9) · c) (fuel + 2)
        [x, .repeated (tokenAndBlankspace e) start 1 0 count none, dollar] 1 = .ok (m, b, calls) ∧
      LevelOK e ⟨e, ts, stack⟩ (Reader.readToken e ts c) m b calls := by
  unfold Reader.readToken
  by_cases hs : c ∈ seperators
  · obtain ⟨m, b, calls, hrun, hm⟩ := matches_token_seperator n hl hs
    obtain ⟨hmore, hfailed, htaken, -⟩ := matches_tokenAndBlankspace (n + 4) hrun
    rw [if_neg (by simpa using hs)]
    by_cases hopen : c = text "("
    · rw [if_pos hopen] at hm
      obtain ⟨hb, rfl, rfl⟩ := hm
      have hnone : m.result = none := by
        obtain ⟨_, _, _, _, rfl, -⟩ := hb
        rfl
      refine ⟨_, _, _, andLoop_tokens (n + 8) (fuel + 1) hstart (hmore hnone rfl) rfl, ?_⟩
      subst hopen
      exact ⟨_, rfl, rfl, rfl, stack, x, count, m, none, hfeed, h0, hb, shows_matcher _, rfl⟩
    · rw [if_neg hopen] at hm
      by_cases hop : c = text "!" ∨ c = text "+" ∨ c = text "|"
      · rw [if_pos hop] at hm
        obtain ⟨hm, rfl, hcalls⟩ := hm
        refine ⟨_, _, _, andLoop_tokens (n + 8) (fuel + 1) hstart (htaken hm rfl) rfl, ?_⟩
        have hready := level_ready hfeed hcalls x m count 0
        rcases hop with rfl | rfl | rfl
        · exact hready
        · exact hready
        · exact hready
      · rw [if_neg hop] at hm
        obtain ⟨hm, rfl, rfl⟩ := hm
        obtain ⟨m', b', hloop, hm'⟩ := andLoop_stop (n + 7) fuel x start count hstart
          (hfailed hm) rfl
        refine ⟨m', b', [], hloop, ?_⟩
        simp only [not_or] at hop
        rw [if_neg hop.1, if_neg hop.2.1, if_neg hop.2.2, if_neg hopen]
        exact level_stop hfeed h0 hm'
  · rw [if_pos hs]
    unfold Reader.readRun
    rcases matches_token_run n (tokenAt_new hl) hs with ⟨hop, m, ht, hrun⟩ | ⟨t, m, calls, hop,
      hcalls, hm, hrun⟩
    · obtain ⟨hmore, -, -, -⟩ := matches_tokenAndBlankspace (n + 4) hrun
      refine ⟨_, _, _, andLoop_tokens (n + 8) (fuel + 1) hstart (hmore ht.result rfl) rfl, ?_⟩
      rw [List.nil_append] at hop
      rw [hop]
      exact ⟨_, rfl, rfl, rfl, stack, x, count, m, hfeed, by simp, ht, rfl⟩
    · obtain ⟨-, -, htaken, -⟩ := matches_tokenAndBlankspace (n + 4) hrun
      refine ⟨_, _, _, andLoop_tokens (n + 8) (fuel + 1) hstart (htaken hm rfl) rfl, ?_⟩
      rw [List.nil_append] at hop
      rw [hop]
      exact level_ready hfeed hcalls x m count 0

/-- The tokens start again where an item has ended before the character. -/
theorem andLoop_tokens_again (n fuel : ℕ) (x : QueryMatch) (count : ℕ) {item item' : QueryMatch}
    {calls : List (TokenCall × QueryMatch)}
    (hrun : item.matches_ queryProgram n c = .ok (item', false, calls))
    (hr : item'.result = some true) :
    Match.andLoop (Match.matches_ queryProgram (n + 1) · c) (fuel + 1)
        [x, .repeated (tokenAndBlankspace e) (some item) 1 0 count none, dollar] 1 =
      goOn calls (Match.andLoop (Match.matches_ queryProgram (n + 1) · c) fuel
        [x, .repeated (tokenAndBlankspace e) (some (tokenAndBlankspace e)) 1 0 (count + 1) none,
          dollar] 1) := by
  have htokens : (.repeated (tokenAndBlankspace e) (some item) 1 0 count none : QueryMatch).matches_
    queryProgram (n + 1) c =
      .ok (.repeated (tokenAndBlankspace e) (some (tokenAndBlankspace e)) 1 0 (count + 1) none,
        false, calls) := by
    rw [Match.matches_, Option.getD_some]
    simp [hrun, hr]
  exact andLoop_again fuel rfl htokens rfl

theorem calling_append {object object' : ExpressionObject} {calls : List (TokenCall × QueryMatch)}
    (h : calling object calls = .ok object') (calls' : List (TokenCall × QueryMatch)) :
    calling object (calls ++ calls') = calling object' calls' := by
  unfold calling at h ⊢
  rw [List.foldlM_append, h]
  rfl

theorem calling_append_error {object : ExpressionObject} {f : Failure}
    {calls : List (TokenCall × QueryMatch)}
    (h : calling object calls = .error f) (calls' : List (TokenCall × QueryMatch)) :
    calling object (calls ++ calls') = .error f := by
  unfold calling at h ⊢
  rw [List.foldlM_append, h]
  rfl

theorem LevelOK.goOn {object object' : ExpressionObject} {x : Except Failure ReadResult}
    {m : QueryMatch} {b : Bool}
    {calls calls' : List (TokenCall × QueryMatch)} (hcall : calling object calls = .ok object')
    (h : LevelOK e object' x m b calls') : LevelOK e object x m b (calls ++ calls') := by
  unfold LevelOK at h ⊢
  rw [calling_append hcall]
  exact h

theorem ObjectOK.of_level (n : ℕ) {object : ExpressionObject} {x : Except Failure ReadResult}
    {inputs : List QueryMatch}
    {i : ℕ} {m : QueryMatch} {b : Bool} {calls : List (TokenCall × QueryMatch)}
    (hrun : Match.andLoop (Match.matches_ queryProgram n · c) n inputs i = .ok (m, b, calls))
    (h : LevelOK e object x m b calls) :
    ObjectOK e x ((.object object (.and inputs i none) none : QueryMatch).matches_ queryProgram
      (n + 2) c) := by
  refine h.object rfl ?_
  rw [Match.matches_]
  simpa using hrun

/-! ### A character -/

theorem matches_start (hl : LowersAscii e.toLower) (n : ℕ) {m : QueryMatch} (h : Shows e .start m) :
    ObjectOK e (Reader.read e .start c) (m.matches_ queryProgram (n + 11) c) := by
  obtain ⟨k, rfl⟩ := h
  unfold Reader.read
  by_cases hc : c ∈ blanks
  · rw [if_pos hc]
    refine ObjectOK.of_level (n + 9) (andLoop_more (n + 8) rfl (matches_blank (n + 6) k hc) rfl) ?_
    exact ⟨_, rfl, rfl, rfl, k + 1, rfl⟩
  · rw [if_neg hc]
    obtain ⟨x, hx, hxr⟩ := matches_noBlank (n + 6) k hc
    obtain ⟨m, b, calls, hloop, hlevel⟩ :=
      level_token hl n (n + 6) hc (show feedTokens e [] [] = .ok [] from rfl) 0
      (fun _ => rfl) x none rfl
    refine ObjectOK.of_level (n + 9) ?_ hlevel
    rw [andLoop_next (n + 8) rfl hx hxr (by simp), goOn_nil]
    exact hloop

theorem matches_ready (hl : LowersAscii e.toLower) (n : ℕ) {ts : List Token} {m : QueryMatch}
    (h : Shows e (.ready ts) m) :
    ObjectOK e (Reader.read e (.ready ts) c) (m.matches_ queryProgram (n + 11) c) := by
  obtain ⟨stack, x, count, t, k, hfeed, rfl⟩ := h
  have hitem : (.and [t, blanksAt k] 1 none : QueryMatch).matches_ queryProgram (n + 8) c =
      Match.andLoop (Match.matches_ queryProgram (n + 7) · c) (n + 7) [t, blanksAt k] 1 := by
    rw [Match.matches_]
    simp
  unfold Reader.read Reader.readNext
  by_cases hc : c ∈ blanks
  · rw [if_pos hc]
    have hrun := hitem.trans (andLoop_more (n + 6) rfl (matches_blank (n + 4) k hc) rfl)
    refine ObjectOK.of_level (n + 9) (andLoop_tokens (n + 8) (n + 8) rfl hrun rfl) ?_
    exact ⟨_, rfl, rfl, rfl, stack, x, count, t, k + 1, hfeed, rfl⟩
  · rw [if_neg hc]
    obtain ⟨k', hk, hkr⟩ := matches_noBlank (n + 4) k hc
    have hrun := hitem.trans (andLoop_last (n + 6) rfl hk hkr rfl)
    obtain ⟨m, b, calls, hloop, hlevel⟩ := level_token hl n (n + 6) hc hfeed (count + 1)
      (fun h => absurd h (Nat.succ_ne_zero _)) x (some (tokenAndBlankspace e)) rfl
    refine ObjectOK.of_level (n + 9) ?_ hlevel
    rw [andLoop_tokens_again (n + 8) (n + 8) x count hrun rfl, goOn_nil]
    exact hloop

theorem matches_inWord (hl : LowersAscii e.toLower) (n : ℕ) {ts : List Token} {run : List BString}
    {m : QueryMatch}
    (h : Shows e (.word ts run) m) :
    ObjectOK e (Reader.read e (.word ts run) c) (m.matches_ queryProgram (n + 11) c) := by
  obtain ⟨stack, x, count, t, hfeed, h0, ht, rfl⟩ := h
  unfold Reader.read
  by_cases hs : c ∈ seperators
  · rw [if_neg (by simpa using hs)]
    obtain ⟨t', calls, hr, hcalls, hrun⟩ := matches_token_word n hl ht h0 hs
    obtain ⟨-, -, -, hend⟩ := matches_tokenAndBlankspace (n + 4) hrun
    have hend := hend hr rfl
    unfold Reader.readNext
    by_cases hc : c ∈ blanks
    · rw [if_pos hc] at hend
      simp only [hc, if_true]
      exact ObjectOK.of_level (n + 9) (andLoop_tokens (n + 8) (n + 8) rfl hend rfl)
        (level_ready hfeed hcalls x t' count 1)
    · rw [if_neg hc] at hend
      simp only [hc, if_false]
      obtain ⟨k, hitem⟩ := hend
      have hagain := andLoop_tokens_again (e := e) (n + 8) (n + 8) x count hitem rfl
      rcases calling_push hfeed hcalls with ⟨f, hpush, hcall⟩ | ⟨stack', hpush, hfeed', hcall⟩
      · obtain ⟨m, b, calls', hloop, -⟩ :=
          level_token hl n (n + 6) hc (show feedTokens e [] [] = .ok [] from rfl)
          (count + 1) (fun _ => rfl) x (some (tokenAndBlankspace e)) rfl
        rw [hloop] at hagain
        refine ObjectOK.of_level (n + 9) hagain ?_
        rw [hpush]
        exact calling_append_error hcall calls'
      · obtain ⟨m, b, calls', hloop, hlevel⟩ := level_token hl n (n + 6) hc hfeed' (count + 1)
          (fun h => absurd h (Nat.succ_ne_zero _)) x (some (tokenAndBlankspace e)) rfl
        rw [hloop] at hagain
        refine ObjectOK.of_level (n + 9) hagain ?_
        rw [hpush]
        exact hlevel.goOn hcall
  · rw [if_pos hs]
    unfold Reader.readRun
    rcases matches_token_run n ht hs with ⟨hop, t', ht', hrun⟩ | ⟨op, t', calls, hop,
      hcalls, hr, hrun⟩
    · obtain ⟨hmore, -, -, -⟩ := matches_tokenAndBlankspace (n + 4) hrun
      rw [hop]
      refine ObjectOK.of_level (n + 9)
        (andLoop_tokens (n + 8) (n + 8) rfl (hmore ht'.result rfl) rfl) ?_
      exact ⟨_, rfl, rfl, rfl, stack, x, count, t', hfeed, by simp, ht', rfl⟩
    · obtain ⟨-, -, htaken, -⟩ := matches_tokenAndBlankspace (n + 4) hrun
      rw [hop]
      exact ObjectOK.of_level (n + 9) (andLoop_tokens (n + 8) (n + 8) rfl (htaken hr rfl) rfl)
        (level_ready hfeed hcalls x t' count 0)

/-! ### A bracket -/

theorem matches_bracketToken (n : ℕ) {inner t : QueryMatch} (h : BracketAt inner t)
    {k : QueryMatch} {b : Bool}
    {calls : List (TokenCall × QueryMatch)} (hi : inner.result = none)
    (hrun : inner.matches_ queryProgram n c = .ok (k, b, calls)) :
    (k.result = none → b = true → calls = [] → ∃ t', BracketAt k t' ∧
      t.matches_ queryProgram (n + 2) c = .ok (t', true, [])) ∧
    (k.result = some true → ∃ t', t'.result = some true ∧
      t.matches_ queryProgram (n + 2) c = .ok (t', b, calls ++ [(.expression, k)])) ∧
    (k.result = some false → b = false → calls = [] → ∃ t', t'.result = some false ∧
      t.matches_ queryProgram (n + 2) c = .ok (t', false, [])) := by
  obtain ⟨w, x, y, z, rfl, hw, hx, hy, hz⟩ := h
  have hinvoke : (.invoke .expression inner none : QueryMatch).matches_ queryProgram (n + 1) c =
      .ok (.invoke .expression k k.result, b, if k.result = some true then calls ++
        [(.expression, k)] else calls) := by
    rw [Match.matches_]
    have hnone : (.invoke .expression inner none : QueryMatch).result = none := hi
    simp [hnone, hrun]
  have hnone : (.invoke .expression inner none : QueryMatch).result = none := hi
  have hloop : Match.orLoop (Match.matches_ queryProgram (n + 1) · c) []
    false [w, x, y, z, .invoke .expression inner none] =
      Match.orLoop (Match.matches_ queryProgram (n + 1) · c) [w, x, y, z]
        false [.invoke .expression inner none] := by
    rw [orLoop_failed [] hw.result, orLoop_failed _ hx.result, orLoop_failed _ hy.result,
      orLoop_failed _ hz.result]
    rfl
  refine ⟨?_, ?_, ?_⟩
  · rintro hk rfl rfl
    rw [hk, if_neg (by simp)] at hinvoke
    have hmore : Match.orLoop (Match.matches_ queryProgram (n + 1) · c) [w, x, y, z]
      false [.invoke .expression inner none] = _ :=
      orLoop_more [w, x, y, z] hnone hinvoke (by simp [Match.result, hk])
    exact ⟨_, ⟨w, x, y, z, rfl, hw, hx, hy, hz⟩, matches_or_none (n + 1) (hloop.trans hmore)⟩
  · intro hk
    rw [hk, if_pos rfl] at hinvoke
    have hfound : Match.orLoop (Match.matches_ queryProgram (n + 1) · c) [w, x, y, z]
      false [.invoke .expression inner none] = _ :=
      orLoop_found [w, x, y, z] hnone hinvoke rfl
    rw [Bool.false_or] at hfound
    exact ⟨_, rfl, matches_or_found (n + 1) (hloop.trans hfound)⟩
  · rintro hk rfl rfl
    rw [hk, if_neg (by simp)] at hinvoke
    have hmore : Match.orLoop (Match.matches_ queryProgram (n + 1) · c) [w, x, y, z]
      false [.invoke .expression inner none] = _ :=
      orLoop_more [w, x, y, z] hnone hinvoke (by simp [Match.result])
    exact ⟨_, rfl, matches_or_none (n + 1) (hloop.trans hmore)⟩

/-- After the expression of a bracket comes its end. -/
theorem matches_bracket_close (n fuel : ℕ) (e : Expression) (k : QueryMatch) : ∃ m,
    Match.andLoop (Match.matches_ queryProgram (n + 1) · c) (fuel + 1)
      [.character (some (text "(")) (some true), .loadOnDemand e (some k) none,
        .character (some (text ")")) none] 2 =
        .ok (m, c == text ")", []) ∧ m.result = some (c == text ")") ∧
      ∃ x y i r, m = .and [x, .loadOnDemand e (some k) none, y] i r := by
  have hrun : (.character (some (text ")")) none : QueryMatch).matches_ queryProgram (n + 1) c =
      .ok (.character (some (text ")")) (some (c == text ")")), c == text ")", []) := by
    rw [Match.matches_]
    simp [Bool.beq_comm]
  by_cases hc : c = text ")"
  · have hb : (c == text ")") = true := by simpa using hc
    rw [hb] at hrun ⊢
    exact ⟨_, andLoop_last fuel rfl hrun rfl rfl, rfl, _, _, _, _, rfl⟩
  · have hb : (c == text ")") = false := by simpa using hc
    rw [hb] at hrun ⊢
    exact ⟨_, andLoop_failed fuel rfl hrun rfl, rfl, _, _, _, _, rfl⟩

theorem feeds_bracket {us : List Token} {stack : Items}
    (hfeed : feedTokens e.createItem [] us = .ok stack)
    (hs : stack.success = true) (k x y : QueryMatch) (i : ℕ) (r r' r'' : Option Bool) :
    Feeds e [(.expression, .and [x, .loadOnDemand e (some (.object ⟨e.createItem, us, stack⟩ k r))
      r', y] i r'')]
      (.bracket us) := by
  rintro object rfl
  obtain ⟨item, rfl⟩ : ∃ item, stack = [.iterable item] := by
    match stack, hs with
    | [.iterable item], _ => exact ⟨item, rfl⟩
  have hcall : queryProgram.onsuccess .expression
      (.and [x, .loadOnDemand object.expression
        (some (.object ⟨object.expression.createItem, us, [.iterable item]⟩ k r)) r', y]
        i r'') object = object.pushed (.bracket us)
          (object.expression.expressionItem item object.stack) := rfl
  have hpushed : object.feed (.bracket us) =
      object.pushed (.bracket us) (object.expression.expressionItem item object.stack) := by
    unfold ExpressionObject.feed
    rw [Token.feed, hfeed]
  rw [List.foldlM_cons, hcall, hpushed]
  exact bind_pure _

/-- What a token that is a bracket comes to for its expression. -/
theorem level_close (n : ℕ) {ts us : List Token} {stack inner : Items} {count : ℕ}
    {x t k : QueryMatch} {item : Option QueryMatch}
    {i : ℕ} {r : Option Bool} (hfeed : feedTokens e [] ts = .ok stack) (h0 : count = 0 → ts = [])
    (ht : BracketAt (bracketAt e i item) t) (hus : feedTokens e.createItem [] us = .ok inner)
    (hs : inner.success = true)
    (hrun : Match.andLoop (Match.matches_ queryProgram (n + 2) · c) (n + 2)
      [.character (some (text "(")) (some true),
        .loadOnDemand e item none, .character (some (text ")")) none] i =
      Match.andLoop (Match.matches_ queryProgram (n + 2) · c) (n + 1)
        [.character (some (text "(")) (some true),
        .loadOnDemand e (some (.object ⟨e.createItem, us, inner⟩ k r)) none,
          .character (some (text ")")) none] 2) :
    ObjectOK e (Reader.close e ts us c)
      ((expressionAt e ts stack x count (.and [t, blankspaces] 0 none)).matches_ queryProgram
        (n + 9) c) := by
  obtain ⟨m, hclose, hm, y, z, j, r', rfl⟩ :=
    matches_bracket_close (c := c) (n + 1) n e (.object ⟨e.createItem, us, inner⟩ k r)
  have hbracket : (bracketAt e i item).matches_ queryProgram (n + 3) c =
      .ok (.and [y, .loadOnDemand e (some (.object ⟨e.createItem, us, inner⟩ k r)) none, z] j r',
        c == text ")", []) := by
    unfold bracketAt
    rw [Match.matches_]
    simpa using hrun.trans hclose
  obtain ⟨-, hdone, hfail⟩ := matches_bracketToken (n + 3) ht rfl hbracket
  unfold Reader.close
  by_cases hc : c = text ")"
  · have hb : (c == text ")") = true := by simpa using hc
    rw [hb] at hm hdone
    obtain ⟨t', ht', htoken⟩ := hdone hm
    obtain ⟨-, -, htaken, -⟩ := matches_tokenAndBlankspace (n + 2) htoken
    rw [if_pos hc]
    exact ObjectOK.of_level (n + 7) (andLoop_tokens (n + 6) (n + 6) rfl (htaken ht' rfl) rfl)
      (level_ready hfeed (feeds_bracket hus hs k y z j r none r') x t' count 0)
  · have hb : (c == text ")") = false := by simpa using hc
    rw [hb] at hm hfail
    obtain ⟨t', ht', htoken⟩ := hfail hm rfl rfl
    obtain ⟨-, hfailed, -, -⟩ := matches_tokenAndBlankspace (n + 2) htoken
    obtain ⟨m, b, hloop, hstop⟩ :=
      andLoop_stop (n + 5) (n + 5) x (some (.and [t, blankspaces] 0 none)) count
      rfl (hfailed ht') rfl
    rw [if_neg hc]
    exact ObjectOK.of_level (n + 7) hloop (level_stop hfeed h0 hstop)

end BeeFish
