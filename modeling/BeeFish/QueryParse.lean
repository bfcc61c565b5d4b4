/-
# How a query is parsed

Every character takes the matcher of an expression to where it takes the
reader, through brackets of any depth (`matches_object`), and so does the end
of the text (`eof_object`). What the parser makes of a text is what the reader
makes of its characters (`Expression.parse_reads`).
-/
import BeeFish.Delivery
import BeeFish.QueryReader
import BeeFish.URLRules

namespace BeeFish

open QueryGrammar
open Match (goOn goOn_nil andLoop_more andLoop_failed andLoop_taken andLoop_next)

variable {c : BString} {e : Expression}

/-! ### The expression of a bracket -/

theorem matches_loadOnDemand (n : ℕ) (item : Option QueryMatch) :
    (.loadOnDemand e item none : QueryMatch).matches_ queryProgram (n + 1) c = do
      let (m, matched, calls) ← (item.getD e.createItem.matcher).matches_ queryProgram n c
      return (.loadOnDemand e (some m) none, matched, calls) := by
  rw [Match.matches_]
  rfl

theorem BracketAt.result {k t : QueryMatch} (h : BracketAt k t) : t.result = none := by
  obtain ⟨_, _, _, _, rfl, -⟩ := h
  rfl

/-- A failure inside the brackets is one of the whole expression. -/
theorem matches_bracket_fail (n : ℕ) {ts : List Token} {stack : Items} {count : ℕ}
    {x t : QueryMatch}
    {item : Option QueryMatch} {f : Failure} (ht : BracketAt (bracketAt e 1 item) t)
    (hrun : (item.getD e.createItem.matcher).matches_ queryProgram (n + 1) c = .fail f) :
    (expressionAt e ts stack x count (.and [t, blankspaces] 0 none)).matches_ queryProgram
    (n + 9) c = .fail f := by
  have hload :
      (.loadOnDemand e item none : QueryMatch).matches_ queryProgram (n + 2) c = .fail f := by
    rw [matches_loadOnDemand, hrun, Run.fail_bind]
  have hbracket : (bracketAt e 1 item).matches_ queryProgram (n + 3) c = .fail f := by
    unfold bracketAt
    rw [Match.matches_]
    simp [Match.andLoop, hload]
  have htoken : t.matches_ queryProgram (n + 5) c = .fail f := by
    obtain ⟨w, p, q, r, rfl, hw, hp, hq, hr⟩ := ht
    have hnone : (.invoke .expression (bracketAt e 1 item) none : QueryMatch).result = none := rfl
    have hinvoke : (.invoke .expression (bracketAt e 1 item) none : QueryMatch).matches_
      queryProgram (n + 4) c = .fail f := by
      rw [Match.matches_]
      simp [hnone, hbracket]
    have hor :
      (.or [w, p, q, r, .invoke .expression (bracketAt e 1 item) none]
      none none : QueryMatch).result = none := rfl
    rw [Match.matches_]
    simp [hor, Match.orLoop, hw.result, hp.result, hq.result, hr.result, hnone, hinvoke]
  have hitem :
      (.and [t, blankspaces] 0 none : QueryMatch).matches_ queryProgram (n + 6) c = .fail f := by
    rw [Match.matches_]
    simp [Match.andLoop, htoken]
  have htokens :
    (.repeated (tokenAndBlankspace e) (some (.and [t, blankspaces] 0 none))
    1 0 count none : QueryMatch).matches_
      queryProgram (n + 7) c = .fail f := by
    rw [Match.matches_, Option.getD_some]
    simp [hitem]
  have hand :
    (.and [x, .repeated (tokenAndBlankspace e) (some (.and [t, blankspaces] 0 none)) 1 0 count none,
    dollar] 1 none :
      QueryMatch).matches_ queryProgram (n + 8) c = .fail f := by
    rw [Match.matches_]
    simp [Match.andLoop, htokens]
  unfold expressionAt
  rw [Match.matches_, hand]
  rfl

theorem matches_closing (n : ℕ) {ts us : List Token} {m : QueryMatch}
    (h : Shows e (.closing ts us) m) :
    ObjectOK e (Reader.read e (.closing ts us) c) (m.matches_ queryProgram (n + 9) c) := by
  obtain ⟨stack, x, count, t, inner, k, hfeed, h0, ht, hus, hs, rfl⟩ := h
  refine level_close n hfeed h0 ht hus hs (k := k) (r := some true) ?_
  have hmono :
    (Match.andLoop (Match.matches_ queryProgram (n + 2) · c) (n + 1)
    [.character (some (text "(")) (some true),
      .loadOnDemand e (some (.object ⟨e.createItem, us, inner⟩ k (some true))) none,
        .character (some (text ")")) none] 2).Le
      (Match.andLoop (Match.matches_ queryProgram (n + 2) · c) (n + 2)
        [.character (some (text "(")) (some true),
      .loadOnDemand e (some (.object ⟨e.createItem, us, inner⟩ k (some true))) none,
        .character (some (text ")")) none] 2) :=
    Match.andLoop_mono (fun _ => .refl _) (by omega) _ _
  obtain ⟨m, hclose, -⟩ := matches_bracket_close (c := c) (n + 1) n e
    (.object ⟨e.createItem, us, inner⟩ k (some true))
  exact (hmono.ok hclose).trans hclose.symm

/-- The expression inside the brackets takes a character. -/
theorem matches_inBracket (c : BString) {ts : List Token} {inner : Reader} {m : QueryMatch}
    (h : Shows e (.bracket ts inner) m) :
    ∃ k, Shows e.createItem inner k ∧ ∀ n, ObjectOK e.createItem (Reader.read e.createItem inner c)
        (k.matches_ queryProgram (n + 1) c) →
      ObjectOK e (Reader.read e (.bracket ts inner) c) (m.matches_ queryProgram (n + 9) c) := by
  obtain ⟨stack, x, count, t, item, hfeed, h0, ht, hshow, rfl⟩ := h
  refine ⟨_, hshow, fun n hinner => ?_⟩
  have hnone : (.loadOnDemand e item none : QueryMatch).result = none := by
    cases item with
    | none => rfl
    | some k => exact hshow.result
  have hand : (bracketAt e 1 item).matches_ queryProgram (n + 3) c =
      Match.andLoop (Match.matches_ queryProgram (n + 2) · c) (n + 2)
        [.character (some (text "(")) (some true),
        .loadOnDemand e item none, .character (some (text ")")) none] 1 := by
    unfold bracketAt
    rw [Match.matches_]
    simp
  unfold Reader.read
  cases hread : Reader.read e.createItem inner c with
  | error f =>
    rw [hread] at hinner
    exact matches_bracket_fail n ht hinner
  | ok result =>
    rw [hread] at hinner
    cases result with
    | reading inner' =>
      obtain ⟨k, hrun, hk⟩ := hinner
      have hload := (matches_loadOnDemand (e := e) (c := c) (n + 1) item).trans
        (congrArg (· >>= _) hrun)
      have hbracket := hand.trans (andLoop_more (n + 1) rfl hload hk.result)
      obtain ⟨hmore, -, -⟩ := matches_bracketToken (n + 3) ht rfl hbracket
      obtain ⟨t', ht', htoken⟩ := hmore rfl rfl rfl
      have hnext := (matches_tokenAndBlankspace (n + 2) htoken).1 (BracketAt.result ht') rfl
      refine ObjectOK.of_level (n + 7) (andLoop_tokens (n + 6) (n + 6) rfl hnext rfl) ?_
      exact ⟨_, rfl, rfl, rfl, stack, x, count, t', some k, hfeed, h0, ht', hk, rfl⟩
    | succeeded us matched =>
      obtain ⟨k, stack', hrun, hus, hs⟩ := hinner
      have hload := (matches_loadOnDemand (e := e) (c := c) (n + 1) item).trans
        (congrArg (· >>= _) hrun)
      cases matched with
      | true =>
        have hbracket := hand.trans (andLoop_taken (n + 1) rfl hload rfl (by simp))
        obtain ⟨hmore, -, -⟩ := matches_bracketToken (n + 3) ht rfl hbracket
        obtain ⟨t', ht', htoken⟩ := hmore rfl rfl rfl
        have hnext := (matches_tokenAndBlankspace (n + 2) htoken).1 (BracketAt.result ht') rfl
        refine ObjectOK.of_level (n + 7) (andLoop_tokens (n + 6) (n + 6) rfl hnext rfl) ?_
        exact ⟨_, rfl, rfl, rfl, stack, x, count, t', stack', k, hfeed, h0, ht', hus, hs, rfl⟩
      | false =>
        refine level_close n hfeed h0 ht hus hs (k := k) (r := some true) ?_
        exact (andLoop_next (n + 1) rfl hload rfl (by simp)).trans (goOn_nil _)
    | failed =>
      obtain ⟨k, matched, hrun, hk⟩ := hinner
      have hload := (matches_loadOnDemand (e := e) (c := c) (n + 1) item).trans
        (congrArg (· >>= _) hrun)
      have hbracket := hand.trans (andLoop_failed (n + 1) rfl hload hk)
      obtain ⟨-, -, hfail⟩ := matches_bracketToken (n + 3) ht rfl hbracket
      obtain ⟨t', ht', htoken⟩ := hfail rfl rfl rfl
      have hfailed := (matches_tokenAndBlankspace (n + 2) htoken).2.1 ht'
      obtain ⟨m, b, hloop, hstop⟩ :=
        andLoop_stop (n + 5) (n + 5) x (some (.and [t, blankspaces] 0 none)) count
        rfl hfailed rfl
      exact ObjectOK.of_level (n + 7) hloop (level_stop hfeed h0 hstop)

/-! ### A character -/

/-- **A character takes the matcher where it takes the reader.** -/
theorem matches_object (c : BString) : ∀ (r : Reader) {e : Expression} {m : QueryMatch},
    LowersAscii e.toLower → Shows e r m →
    ∃ n₀, ∀ n, n₀ ≤ n → ObjectOK e (Reader.read e r c) (m.matches_ queryProgram n c)
  | .start, e, m, hl, h => ⟨11, fun n hn => by
    obtain ⟨k, rfl⟩ := Nat.exists_eq_add_of_le' hn
    exact matches_start hl k h⟩
  | .ready ts, e, m, hl, h => ⟨11, fun n hn => by
    obtain ⟨k, rfl⟩ := Nat.exists_eq_add_of_le' hn
    exact matches_ready hl k h⟩
  | .word ts run, e, m, hl, h => ⟨11, fun n hn => by
    obtain ⟨k, rfl⟩ := Nat.exists_eq_add_of_le' hn
    exact matches_inWord hl k h⟩
  | .closing ts us, e, m, hl, h => ⟨9, fun n hn => by
    obtain ⟨k, rfl⟩ := Nat.exists_eq_add_of_le' hn
    exact matches_closing k h⟩
  | .bracket ts inner, e, m, hl, h => by
    obtain ⟨k, hk, hstep⟩ := matches_inBracket c h
    obtain ⟨n₀, hn₀⟩ := matches_object c inner (e := e.createItem) hl hk
    refine ⟨n₀ + 9, fun n hn => ?_⟩
    obtain ⟨i, rfl⟩ := Nat.exists_eq_add_of_le' hn
    have := hstep (i + n₀) (hn₀ _ (by omega))
    rwa [Nat.add_assoc] at this

/-! ### The end of the text -/

/-- What the end of the text comes to for the object of an expression. -/
def EofOK (e : Expression) (x : Except Failure (Option (List Token)))
    (run : Run Failure (QueryMatch × List (TokenCall × QueryMatch))) :
    Prop :=
  match x with
  | .error f => run = .fail f
  | .ok (some ts) =>
    ∃ k stack, run = .ok (.object ⟨e, ts, stack⟩ k (some true), []) ∧ feedTokens e [] ts = .ok stack
  | .ok none => ∃ m, run = .ok (m, []) ∧ m.result = some false

theorem eof_object_eq (n : ℕ) {object : ExpressionObject} {m m' : QueryMatch}
    {calls : List (TokenCall × QueryMatch)}
    (hm : m.result = none) (hrun : m.eof queryProgram n = .ok (m', calls)) :
    (.object object m none : QueryMatch).eof queryProgram (n + 1) = do
      let self ← .ofExcept (calling object calls)
      return (.object self m' (some (m'.result == some true && self.stack.success)), []) := by
  rw [Match.eof]
  simp only [hm, if_true, hrun, Run.ok_bind]
  rfl

theorem EofOK.finish (n : ℕ) {object : ExpressionObject} {ts : List Token} {stack : Items}
    {m m' : QueryMatch}
    {calls : List (TokenCall × QueryMatch)} (hm : m.result = none)
    (hrun : m.eof queryProgram n = .ok (m', calls))
    (hcall : calling object calls = .ok ⟨e, ts, stack⟩) (hfeed : feedTokens e [] ts = .ok stack)
    (hr : m'.result = some true ∨ ts = []) :
    EofOK e (.ok (Reader.finish e ts)) ((.object object m none : QueryMatch).eof queryProgram
      (n + 1)) := by
  have hsucceeds : e.succeeds ts = stack.success := by rw [Expression.succeeds, hfeed]
  rw [eof_object_eq n hm hrun, hcall, Run.ofExcept_ok, Run.ok_bind]
  unfold Reader.finish
  rw [hsucceeds]
  cases hs : stack.success with
  | false => exact ⟨_, rfl, by simp [Match.result]⟩
  | true =>
    have hr : m'.result = some true := by
      apply hr.resolve_right
      rintro rfl
      obtain rfl : [] = stack := Except.ok.inj hfeed
      cases hs
    exact ⟨m', stack, by simp [hr], hfeed⟩

theorem eof_dollar (n : ℕ) : ∃ m, dollar.eof queryProgram (n + 2) = .ok (m, []) ∧
    m.result = some true :=
  ⟨.optional (.character (some (text "$")) (some false)) (some true), rfl, rfl⟩

/-- The tokens end with an item that has no result. -/
theorem eof_tokens (n : ℕ) (x : QueryMatch) (count : ℕ) {item item' : QueryMatch}
    {calls : List (TokenCall × QueryMatch)} {b : Bool}
    (hitem : item.result = none) (hrun : item.eof queryProgram (n + 1) = .ok (item', calls))
    (hb : item'.result = some b) : ∃ m,
    (.and [x, .repeated (tokenAndBlankspace e) (some item) 1 0 count none, dollar]
      1 none : QueryMatch).eof
      queryProgram (n + 3) = .ok (m, calls) ∧ m.result = some (b || decide (count ≠ 0)) := by
  have htokens : (.repeated (tokenAndBlankspace e) (some item) 1 0 count none : QueryMatch).eof
    queryProgram (n + 2) =
      .ok (.repeated (tokenAndBlankspace e) (some item') 1 0 (if b then count + 1 else count)
        (some (b || decide (count ≠ 0))),
        calls) := by
    rw [Match.eof]
    cases b <;> simp [hitem, hrun, hb, Match.setResult, Nat.one_le_iff_ne_zero]
  obtain ⟨d, hd, hdr⟩ := eof_dollar n
  have hand :
    (.and [x, .repeated (tokenAndBlankspace e) (some item) 1 0 count none, dollar]
    1 none : QueryMatch).eof
      queryProgram (n + 3) = Match.andEof (Match.eof queryProgram (n + 2))
          [.repeated (tokenAndBlankspace e) (some item) 1 0 count none, dollar] >>= fun r =>
        return (.and ([x] ++ r.1) 1 (some r.2.1), r.2.2) := by
    rw [Match.eof]
    rfl
  rw [hand, Match.andEof, htokens]
  cases hs : (b || decide (count ≠ 0)) with
  | false => exact ⟨_, rfl, rfl⟩
  | true =>
    exact ⟨.and [x, .repeated (tokenAndBlankspace e) (some item') 1 0
      (if b then count + 1 else count) (some true), d] 1
      (some true), by simp [Match.andEof, Match.result, hd, hdr], rfl⟩

theorem eof_start {m : QueryMatch} (h : Shows e .start m) (n : ℕ) :
    EofOK e (Reader.eof e .start) (m.eof queryProgram (n + 5)) := by
  obtain ⟨k, rfl⟩ := h
  obtain ⟨b, hb, hbr⟩ := eof_blanks n k
  have htokens : (QueryGrammar.tokens e).eof queryProgram (n + 3) =
      .ok (.repeated (tokenAndBlankspace e) none 1 0 0 (some false), []) := rfl
  have hand : (.and [blanksAt k, QueryGrammar.tokens e, dollar] 0 none : QueryMatch).eof
    queryProgram (n + 4) =
      .ok (.and [b, .repeated (tokenAndBlankspace e) none 1 0 0 (some false), dollar] 0
        (some false), []) := by
    rw [Match.eof]
    simp [Match.andEof, hb, hbr, htokens, Match.result]
  rw [eof_object_eq (n + 4) rfl hand]
  exact ⟨_, rfl, rfl⟩

theorem eof_ready {ts : List Token} {m : QueryMatch} (h : Shows e (.ready ts) m) (n : ℕ) :
    EofOK e (Reader.eof e (.ready ts)) (m.eof queryProgram (n + 7)) := by
  obtain ⟨stack, x, count, t, k, hfeed, rfl⟩ := h
  obtain ⟨b, hb, hbr⟩ := eof_blanks n k
  have hitem : (.and [t, blanksAt k] 1 none : QueryMatch).eof queryProgram (n + 4) =
    .ok (.and [t, b] 1 (some true), []) := by
    rw [Match.eof]
    simp [Match.andEof, hb, hbr]
  obtain ⟨m, hm, hr⟩ := eof_tokens (e := e) (n + 3) x count rfl hitem rfl
  exact .finish (n + 6) rfl hm rfl hfeed (Or.inl (by simp [hr]))

theorem eof_inWord (hl : LowersAscii e.toLower) {ts : List Token} {run : List BString}
    {m : QueryMatch}
    (h : Shows e (.word ts run) m) (n : ℕ) :
    EofOK e (Reader.eof e (.word ts run)) (m.eof queryProgram (n + 11)) := by
  obtain ⟨stack, x, count, t, hfeed, h0, ht, rfl⟩ := h
  obtain ⟨t', calls, hr, hcalls, hrun⟩ := eof_token_word n hl ht h0
  obtain ⟨b, hb, hbr⟩ := eof_blanks (n + 4) 0
  have hitem : (.and [t, blankspaces] 0 none : QueryMatch).eof queryProgram (n + 8) =
    .ok (.and [t', b] 0 (some true), calls) := by
    rw [Match.eof]
    simp [Match.andEof, hrun, hr, show blankspaces.eof queryProgram (n + 7) =
      .ok (b, []) from hb, hbr]
  obtain ⟨m, hm, hr⟩ := eof_tokens (e := e) (n + 7) x count rfl hitem rfl
  unfold Reader.eof
  rcases calling_push hfeed hcalls with ⟨f, hpush, hcall⟩ | ⟨stack', hpush, hfeed', hcall⟩
  · rw [hpush]
    unfold expressionAt
    rw [eof_object_eq (n + 10) rfl hm, hcall]
    rfl
  · rw [hpush]
    exact .finish (n + 10) rfl hm hcall hfeed' (Or.inl (by simp [hr]))

/-- A bracket that has not ended is no token. -/
theorem eof_bracketToken (n : ℕ) {inner inner' t : QueryMatch} (h : BracketAt inner t)
    (hnone : inner.result = none)
    (hrun : inner.eof queryProgram (n + 1) = .ok (inner', [])) (hr : inner'.result = some false) :
    ∃ t',
    t.eof queryProgram (n + 3) = .ok (t', []) ∧ t'.result = some false := by
  obtain ⟨w, p, q, r, rfl, hw, hp, hq, hr'⟩ := h
  have hinvoke : (.invoke .expression inner none : QueryMatch).eof queryProgram (n + 2) =
      .ok (.invoke .expression inner' (some false), []) := by
    rw [Match.eof]
    simp [hnone, hrun, hr]
  refine ⟨.or [w, p, q, r, .invoke .expression inner' (some false)] none (some false), ?_, rfl⟩
  rw [Match.eof]
  have hor :
      (.or [w, p, q, r, .invoke .expression inner none] none none : QueryMatch).result = none := rfl
  simp [hor, Match.orEof, hw.eof, hp.eof, hq.eof, hr'.eof, hw.result, hp.result, hq.result,
    hr'.result, hinvoke]
  rfl

/-- The text ends in a bracket: the tokens before it are left. -/
theorem eof_unclosed (n : ℕ) {ts : List Token} {stack : Items} {count : ℕ}
    {x t inner inner' : QueryMatch}
    (hfeed : feedTokens e [] ts = .ok stack) (h0 : count = 0 → ts = []) (ht : BracketAt inner t)
    (hnone : inner.result = none)
    (hrun : inner.eof queryProgram (n + 1) = .ok (inner', [])) (hr : inner'.result = some false) :
    EofOK e (.ok (Reader.finish e ts))
      ((expressionAt e ts stack x count (.and [t, blankspaces] 0 none)).eof queryProgram
        (n + 7)) := by
  obtain ⟨t', htoken, ht'⟩ := eof_bracketToken n ht hnone hrun hr
  have hitem : (.and [t, blankspaces] 0 none : QueryMatch).eof queryProgram (n + 4) =
      .ok (.and [t', blankspaces] 0 (some false), []) := by
    rw [Match.eof]
    simp [Match.andEof, htoken, ht']
  obtain ⟨m, hm, hr⟩ := eof_tokens (e := e) (n + 3) x count rfl hitem rfl
  refine .finish (n + 6) rfl hm rfl hfeed ?_
  by_cases hc : count = 0
  · exact Or.inr (h0 hc)
  · exact Or.inl (by simp [hr, hc])

/-- The matcher of a bracket has no result at the end of the text but that it
fails, as its parenthesis has not come. -/
theorem eof_bracket (n : ℕ) (item : Option QueryMatch) {l : QueryMatch} {b : Bool}
    (hrun : (.loadOnDemand e item none : QueryMatch).eof queryProgram (n + 1) = .ok (l, []))
    (hb : l.result = some b) :
    ∃ m : QueryMatch, (bracketAt e 1 item).eof queryProgram (n + 2) = .ok (m, []) ∧
      m.result = some false := by
  unfold bracketAt
  rw [Match.eof]
  cases b with
  | false => exact ⟨_, by simp [Match.andEof, hrun, hb]; rfl, rfl⟩
  | true =>
    refine ⟨.and [.character (some (text "(")) (some true), l, .character (some (text ")"))
      (some false)] 1 (some false), ?_, rfl⟩
    have hclose : (.character (some (text ")")) none : QueryMatch).eof queryProgram (n + 1) =
        .ok (.character (some (text ")")) (some false), []) := rfl
    simp [Match.andEof, hrun, hb, hclose, Match.result]

theorem eof_closing {ts us : List Token} {m : QueryMatch} (h : Shows e (.closing ts us) m) (n : ℕ) :
    EofOK e (Reader.eof e (.closing ts us)) (m.eof queryProgram (n + 8)) := by
  obtain ⟨stack, x, count, t, inner, k, hfeed, h0, ht, hus, hs, rfl⟩ := h
  have hbracket : (bracketAt e 2 (some (.object ⟨e.createItem, us, inner⟩ k (some true)))).eof
    queryProgram (n + 2) =
      .ok (.and [.character (some (text "(")) (some true),
        .loadOnDemand e (some (.object ⟨e.createItem, us, inner⟩ k (some true))) none,
        .character (some (text ")")) (some false)] 2 (some false), []) := by
    unfold bracketAt
    rw [Match.eof]
    rfl
  exact eof_unclosed (n + 1) hfeed h0 ht rfl hbracket rfl

/-- A failure at the end of the expression inside the brackets -/
theorem eof_bracket_fail (n : ℕ) {ts : List Token} {stack : Items} {count : ℕ} {x t k : QueryMatch}
    {f : Failure}
    (ht : BracketAt (bracketAt e 1 (some k)) t) (hk : k.result = none)
    (hrun : k.eof queryProgram n = .fail f) :
    (expressionAt e ts stack x count (.and [t, blankspaces] 0 none)).eof queryProgram
    (n + 8) = .fail f := by
  have hload : (.loadOnDemand e (some k) none : QueryMatch).eof queryProgram (n + 1) = .fail f := by
    rw [Match.eof]
    simp [hk, hrun]
  have hbracket : (bracketAt e 1 (some k)).eof queryProgram (n + 2) = .fail f := by
    unfold bracketAt
    rw [Match.eof]
    simp [Match.andEof, hload]
  have htoken : t.eof queryProgram (n + 4) = .fail f := by
    obtain ⟨w, p, q, r, rfl, hw, hp, hq, hr⟩ := ht
    have hnone : (bracketAt e 1 (some k)).result = none := rfl
    have hinvoke : (.invoke .expression (bracketAt e 1 (some k)) none : QueryMatch).eof queryProgram
      (n + 3) = .fail f := by
      rw [Match.eof]
      simp [hnone, hbracket]
    have hor :
      (.or [w, p, q, r, .invoke .expression (bracketAt e 1 (some k)) none]
      none none : QueryMatch).result = none := rfl
    rw [Match.eof]
    simp [hor, Match.orEof, hw.eof, hp.eof, hq.eof, hr.eof, hw.result, hp.result, hq.result,
      hr.result, hinvoke]
  have hitem : (.and [t, blankspaces] 0 none : QueryMatch).eof queryProgram (n + 5) = .fail f := by
    rw [Match.eof]
    simp [Match.andEof, htoken]
  have htokens :
    (.repeated (tokenAndBlankspace e) (some (.and [t, blankspaces] 0 none))
    1 0 count none : QueryMatch).eof
      queryProgram (n + 6) = .fail f := by
    have hnone : (.and [t, blankspaces] 0 none : QueryMatch).result = none := rfl
    rw [Match.eof]
    simp [hnone, hitem]
  have hand :
    (.and [x, .repeated (tokenAndBlankspace e) (some (.and [t, blankspaces] 0 none)) 1 0 count none,
    dollar] 1 none :
      QueryMatch).eof queryProgram (n + 7) = .fail f := by
    rw [Match.eof]
    simp [Match.andEof, htokens]
  unfold expressionAt
  rw [Match.eof, hand]
  rfl

theorem Shows.start {r : Reader} (h : Shows e r e.matcher) : r = .start := by
  unfold Expression.matcher at h
  cases r with
  | start => rfl
  | ready ts =>
    obtain ⟨_, _, _, _, _, _, h⟩ := h
    cases h
  | word ts run =>
    obtain ⟨_, _, _, _, _, _, _, h⟩ := h
    cases h
  | bracket ts inner =>
    obtain ⟨_, _, _, _, _, _, _, _, _, h⟩ := h
    cases h
  | closing ts us =>
    obtain ⟨_, _, _, _, _, _, _, _, _, _, _, h⟩ := h
    cases h

theorem eof_inBracket {ts : List Token} {inner : Reader} {m : QueryMatch}
    (h : Shows e (.bracket ts inner) m) :
    ∃ k, Shows e.createItem inner k ∧ ∀ n, EofOK e.createItem (Reader.eof e.createItem inner)
      (k.eof queryProgram n) →
      EofOK e (Reader.eof e (.bracket ts inner)) (m.eof queryProgram (n + 8)) := by
  obtain ⟨stack, x, count, t, item, hfeed, h0, ht, hshow, rfl⟩ := h
  refine ⟨_, hshow, fun n hinner => ?_⟩
  cases item with
  | none =>
    -- nothing has been loaded, so the reader is before the first token
    obtain rfl : inner = .start := hshow.start
    obtain ⟨m, hm, hr⟩ := eof_bracket (e := e) n none rfl rfl
    exact eof_unclosed (n + 1) hfeed h0 ht rfl hm hr
  | some k =>
    have hk : k.result = none := hshow.result
    have hload : ∀ k', k.eof queryProgram n = .ok (k', []) →
      (.loadOnDemand e (some k) none : QueryMatch).eof queryProgram (n + 1) =
        .ok (.loadOnDemand e (some k') (some (k'.result == some true)), []) := by
      intro k' hrun
      rw [Match.eof]
      simp [hk, hrun, Match.setResult]
    have hunclosed : ∀ k', k.eof queryProgram n = .ok (k', []) → EofOK e (.ok (Reader.finish e ts))
        ((expressionAt e ts stack x count (.and [t, blankspaces] 0 none)).eof queryProgram
          (n + 8)) := by
      intro k' hrun
      obtain ⟨m, hm, hr⟩ := eof_bracket n (some k) (hload k' hrun) rfl
      exact eof_unclosed (n + 1) hfeed h0 ht rfl hm hr
    unfold Reader.eof
    change EofOK e.createItem (Reader.eof e.createItem inner) (k.eof queryProgram n) at hinner
    cases heof : Reader.eof e.createItem inner with
    | error f =>
      rw [heof] at hinner
      exact eof_bracket_fail n ht hk hinner
    | ok result =>
      rw [heof] at hinner
      cases result with
      | none =>
        obtain ⟨k', hrun, -⟩ := hinner
        exact hunclosed k' hrun
      | some us =>
        obtain ⟨k', stack', hrun, -⟩ := hinner
        exact hunclosed _ hrun

/-- **The end of the text takes the matcher where it takes the reader.** -/
theorem eof_object : ∀ (r : Reader) {e : Expression} {m : QueryMatch}, LowersAscii e.toLower →
    Shows e r m →
    ∃ n₀, ∀ n, n₀ ≤ n → EofOK e (Reader.eof e r) (m.eof queryProgram n)
  | .start, e, m, hl, h => ⟨5, fun n hn => by
    obtain ⟨k, rfl⟩ := Nat.exists_eq_add_of_le' hn
    exact eof_start h k⟩
  | .ready ts, e, m, hl, h => ⟨7, fun n hn => by
    obtain ⟨k, rfl⟩ := Nat.exists_eq_add_of_le' hn
    exact eof_ready h k⟩
  | .word ts run, e, m, hl, h => ⟨11, fun n hn => by
    obtain ⟨k, rfl⟩ := Nat.exists_eq_add_of_le' hn
    exact eof_inWord hl h k⟩
  | .closing ts us, e, m, hl, h => ⟨8, fun n hn => by
    obtain ⟨k, rfl⟩ := Nat.exists_eq_add_of_le' hn
    exact eof_closing h k⟩
  | .bracket ts inner, e, m, hl, h => by
    obtain ⟨k, hk, hstep⟩ := eof_inBracket h
    obtain ⟨n₀, hn₀⟩ := eof_object inner (e := e.createItem) hl hk
    refine ⟨n₀ + 8, fun n hn => ?_⟩
    obtain ⟨i, rfl⟩ := Nat.exists_eq_add_of_le' hn
    have := hstep (i + n₀) (hn₀ _ (by omega))
    rwa [Nat.add_assoc] at this

/-! ### The parser -/

/-- The parser of a query, once its matcher is somewhere in the text. -/
def parseRest (fuel : ℕ) (m : QueryMatch) (cs : List BString) : Run Failure ExpressionObject := do
  let m ← Parser.push queryProgram fuel m cs
  let parser ← Parser.eof queryProgram fuel ⟨m, if m.result ≠ none then m.result else none⟩
  if parser.result = some true then
    match parser.match_ with
    | .object object _ _ => return object
    | _ => .fail .rejected
  else .fail .rejected

/-- What the reader makes of a text, as the parser reports it. -/
def Expression.reported (e : Expression) (x : Except Failure (Option (List Token))) :
    Run Failure ExpressionObject :=
  match x with
  | .error f => .fail f
  | .ok (some ts) => .ofExcept ((feedTokens e [] ts).map fun stack => ⟨e, ts, stack⟩)
  | .ok none => .fail .rejected

theorem Expression.reported_some {ts : List Token} {stack : Items}
    (h : feedTokens e [] ts = .ok stack) :
    e.reported (.ok (some ts)) = .ok ⟨e, ts, stack⟩ := by
  unfold Expression.reported
  simp only [h]
  rfl

theorem parseRest_nil {r : Reader} {m : QueryMatch} (hl : LowersAscii e.toLower) (h : Shows e r m) :
    ∃ n₀, ∀ n, n₀ ≤ n → parseRest n m [] = e.reported (Reader.readAll e r []) := by
  obtain ⟨n₀, hn₀⟩ := eof_object r hl h
  refine ⟨n₀, fun n hn => ?_⟩
  have heof := hn₀ n hn
  have hnone : m.result = none := h.result
  unfold parseRest Parser.push Parser.eof Reader.readAll
  rw [Run.pure_eq, Run.ok_bind, hnone]
  simp only [ne_eq, not_true_eq_false, if_false]
  cases hx : Reader.eof e r with
  | error f =>
    rw [hx] at heof
    rw [show m.eof queryProgram n = .fail f from heof]
    rfl
  | ok result =>
    rw [hx] at heof
    cases result with
    | none =>
      obtain ⟨m', hrun, hm'⟩ := heof
      simp [hrun, hm', Expression.reported]
    | some ts =>
      obtain ⟨k, stack, hrun, hfeed⟩ := heof
      rw [Expression.reported_some hfeed]
      simp [hrun, Match.result]

theorem push_stop (n : ℕ) {m m' : QueryMatch} {b r : Bool} {calls : List (TokenCall × QueryMatch)}
    (cs : List BString)
    (hrun : m.matches_ queryProgram n c = .ok (m', b, calls)) (hr : m'.result = some r) :
    Parser.push queryProgram n m (c :: cs) = .ok m' := by
  rw [Parser.push, hrun, Run.ok_bind]
  simp only [hr]
  rfl

theorem parseRest_failed (n : ℕ) {m m' : QueryMatch} {b : Bool}
    {calls : List (TokenCall × QueryMatch)} (cs : List BString)
    (hrun : m.matches_ queryProgram n c = .ok (m', b, calls)) (hr : m'.result = some false) :
    parseRest n m (c :: cs) = .fail .rejected := by
  unfold parseRest
  rw [push_stop n cs hrun hr, Run.ok_bind, hr]
  rfl

theorem parseRest_succeeded (n : ℕ) {m k : QueryMatch} {object : ExpressionObject} {b : Bool}
    {calls : List (TokenCall × QueryMatch)}
    (cs : List BString)
    (hrun : m.matches_ queryProgram n c = .ok (.object object k (some true), b, calls)) :
    parseRest n m (c :: cs) = .ok object := by
  unfold parseRest
  rw [push_stop n cs hrun rfl, Run.ok_bind]
  rfl

theorem parseRest_more (n : ℕ) {m m' : QueryMatch} {calls : List (TokenCall × QueryMatch)}
    (cs : List BString)
    (hrun : m.matches_ queryProgram n c = .ok (m', true, calls)) (hr : m'.result = none) :
    parseRest n m (c :: cs) = parseRest n m' cs := by
  have hpush : Parser.push queryProgram n m (c :: cs) = Parser.push queryProgram n m' cs := by
    rw [Parser.push, hrun, Run.ok_bind]
    simp only [hr]
    rfl
  unfold parseRest
  rw [hpush]

/-- A run of the parser from where the reader is, by induction on the text. -/
theorem parseRest_eq (hl : LowersAscii e.toLower) :
    ∀ (cs : List BString) {r : Reader} {m : QueryMatch}, Shows e r m →
    ∃ n₀, ∀ n, n₀ ≤ n → parseRest n m cs = e.reported (Reader.readAll e r cs)
  | [], _, _, h => parseRest_nil hl h
  | c :: cs, r, m, h => by
    obtain ⟨n₀, hn₀⟩ := matches_object c r hl h
    unfold Reader.readAll
    cases hx : Reader.read e r c with
    | error f =>
      rw [hx] at hn₀
      refine ⟨n₀, fun n hn => ?_⟩
      unfold parseRest Parser.push
      rw [show m.matches_ queryProgram n c = .fail f from hn₀ n hn]
      rfl
    | ok result =>
      rw [hx] at hn₀
      cases result with
      | reading r' =>
        obtain ⟨m₁, hrun, hm₁⟩ := hn₀ n₀ (le_refl n₀)
        obtain ⟨n₁, hn₁⟩ := parseRest_eq hl cs hm₁
        refine ⟨max n₀ n₁, fun n hn => ?_⟩
        have hmore := (Match.matches_mono c (le_trans (le_max_left n₀ n₁) hn) m).ok hrun
        rw [parseRest_more n cs hmore hm₁.result]
        exact hn₁ n (le_trans (le_max_right n₀ n₁) hn)
      | succeeded ts b =>
        refine ⟨n₀, fun n hn => ?_⟩
        obtain ⟨k, stack, hrun, hfeed, -⟩ := hn₀ n hn
        rw [parseRest_succeeded n cs hrun]
        exact (Expression.reported_some hfeed).symm
      | failed =>
        refine ⟨n₀, fun n hn => ?_⟩
        obtain ⟨m', b, hrun, hm'⟩ := hn₀ n hn
        exact parseRest_failed n cs hrun hm'

theorem parse_eq_parseRest (fuel : ℕ) (e : Expression) (query : BString) :
    e.parse fuel query = parseRest fuel e.matcher (Parser.characters query) := by
  unfold Expression.parse parseRest Parser.read
  rcases (Parser.push queryProgram fuel e.matcher (Parser.characters query)).cases with h | ⟨f,
    h⟩ | ⟨m, h⟩
  · rw [h]
    rfl
  · rw [h]
    rfl
  · rw [h]
    rfl

/-- **What the parser makes of a query is what the reader makes of its
characters**: the same tokens with what the expression makes of them, the same
rejections and the same failures, for every text of characters and with enough
fuel. -/
theorem Expression.parse_reads (e : Expression) (hl : LowersAscii e.toLower) {query : List BString}
    (hquery : Utf8.IsText query) :
    ∃ n₀, ∀ fuel, n₀ ≤ fuel → e.parse fuel query.flatten = e.reported
      (Reader.readAll e .start query) := by
  obtain ⟨n₀, hn₀⟩ := parseRest_eq hl query (shows_matcher e)
  refine ⟨n₀, fun fuel hn => ?_⟩
  rw [parse_eq_parseRest, Parser.characters_text hquery, hn₀ fuel hn]

/-- The word `orange` begins with an operator, which has no left operand. -/
theorem Expression.parse_reads_orange : ∃ n₀, ∀ fuel, n₀ ≤ fuel →
    (Expression.open id .create [] []).parse fuel (text "orange") = .fail .dereferenced := by
  have hquery : Utf8.IsText [text "o", text "r", text "a", text "n", text "g", text "e"] := by
    have hall : ∀ c ∈ [text "o", text "r", text "a", text "n", text "g", text "e"], c = [c.headI] ∧
      c.headI < 0x80 := by decide
    intro c hc
    rw [(hall c hc).1]
    exact Utf8.isChar_ascii (hall c hc).2
  obtain ⟨n₀, hn₀⟩ := Expression.parse_reads (Expression.open id .create [] [])
    (fun _ _ => rfl) hquery
  exact ⟨n₀, fun fuel hn => (hn₀ fuel hn).trans rfl⟩

end BeeFish
