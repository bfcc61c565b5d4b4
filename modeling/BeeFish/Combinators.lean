/-
# Combinators

A matcher of `Character`, `Range`, `Word`, `And`, `Or`, `Optional` and `Repeat`
is the matcher of a pattern, an expression over characters. Pushed a text in
which no part is broken off, no item is ended by the next character outside an
`And`, and no alternative that may be empty comes first, it comes to what is
right about the text, with the last character or without it
(`Pattern.follows_matcher`). So of these texts it accepts those of the language
of the pattern (`Parser.readText_iff`).

Key definitions: `Pattern`, `Pattern.matcher`, `Match.Drives`, `Parser.readText`.
-/
import BeeFish.Delivery
import BeeFish.Lib.Grammar

namespace BeeFish

open Utf8 Grammar

variable {κ σ τ φ : Type}

/-! ### Patterns -/

abbrev Character := {c : BString // IsChar c}

/-- What a matcher of one character looks for. -/
inductive CharacterSet where
  | character (characterToMatch : Option BString)
  | range (minimum maximum : BString)

namespace CharacterSet

def holds : CharacterSet → Character → Bool
  | character characterToMatch, c => characterToMatch.all (· == c.1)
  | range minimum maximum, c => decide (minimum ≤ c.1) && decide (c.1 ≤ maximum)

def matcher : CharacterSet → Match κ σ τ
  | character characterToMatch => .character characterToMatch none
  | range minimum maximum => .range minimum maximum none

end CharacterSet

abbrev Pattern := Expr Character CharacterSet

namespace Pattern

/-- The bytes of a text. -/
def bytes (w : List Character) : BString := (w.map Subtype.val).flatten

mutual

/-- The matcher of a pattern, as it starts. -/
def matcher : Pattern → Match κ σ τ
  | .one set => set.matcher
  | .word w => .word id (bytes w) none
  | .seq es => .and (matchers es) 0 none
  | .alt es => .or (matchers es) none none
  | .opt e => .optional (matcher e) none
  | .rep e minimum maximum => .repeated (matcher e) none minimum maximum 0 none

def matchers : List Pattern → List (Match κ σ τ)
  | [] => []
  | e :: es => matcher e :: matchers es

end

theorem result_matcher : ∀ e : Pattern, (matcher e : Match κ σ τ).result = none
  | .one (.character _) => rfl
  | .one (.range _ _) => rfl
  | .word _ => rfl
  | .seq _ => rfl
  | .alt _ => rfl
  | .opt e => by
    have he : (matcher e : Match κ σ τ).result = none := result_matcher e
    simp [matcher, Match.result, he]
  | .rep _ _ _ => rfl

end Pattern

/-! ### Drives -/

namespace Match

variable (P : Program κ σ τ φ)

/-- What the matcher does with a character, with enough fuel. -/
def Pushes (m : Match κ σ τ) (c : BString) (m' : Match κ σ τ) (matched : Bool) : Prop :=
  ∃ fuel, matches_ P fuel m c = .ok (m', matched, [])

/-- The result of the matcher at the end of the text. -/
def Ends (m : Match κ σ τ) (ok : Bool) : Prop :=
  ∃ fuel m', eof P fuel m = .ok (m', []) ∧ m'.result = some ok

structure Failed (m : Match κ σ τ) : Prop where
  result : m.result = some false
  ends : Ends P m false

/-- What the matcher comes to with a text that it is pushed, a character again where
it has not taken it and has no result; then it has stalled. -/
inductive Drives : Match κ σ τ → List Character → Bool → Out Character → Prop
  | stop {m : Match κ σ τ} {ok : Bool} (h : Ends P m ok) : Drives m [] false (.stop ok)
  | taken {m m' : Match κ σ τ} {c : Character} {w : List Character} {stalled : Bool}
      {out : Out Character}
      (h : Pushes P m c.1 m' true) (hr : m'.result = none) (hw : Drives m' w stalled out) :
        Drives m (c :: w) stalled out
  | done {m m' : Match κ σ τ} {c : Character} {w : List Character} (h : Pushes P m c.1 m' true)
      (hr : m'.result = some true) : Drives m (c :: w) false (.done false w)
  | late {m m' : Match κ σ τ} {c : Character} {w : List Character} (h : Pushes P m c.1 m' false)
      (hr : m'.result = some true) : Drives m (c :: w) false (.done true (c :: w))
  | fail {m m' : Match κ σ τ} {c : Character} {w : List Character} (h : Pushes P m c.1 m' false)
      (hm : Failed P m') : Drives m (c :: w) false (.fail (c :: w))
  | stall {m m' : Match κ σ τ} {c : Character} {w : List Character} {stalled : Bool}
      {out : Out Character}
      (h : Pushes P m c.1 m' false) (hr : m'.result = none) (hw : Drives m' (c :: w) stalled out) :
      Drives m (c :: w) true out

variable {P} {m m' : Match κ σ τ} {c : Character} {w : List Character} {out : Out Character}
    {s matched : Bool}

theorem Pushes.more {c : BString} {b : Bool} (h : Pushes P m c m' b) :
    ∃ n, ∀ fuel, n ≤ fuel → matches_ P fuel m c = .ok (m', b, []) := by
  obtain ⟨n, hn⟩ := h
  exact ⟨n, fun fuel hf => (matches_mono c hf m).ok hn⟩

theorem Ends.more {ok : Bool} (h : Ends P m ok) :
    ∃ n m', m'.result = some ok ∧ ∀ fuel, n ≤ fuel → eof P fuel m = .ok (m', []) := by
  obtain ⟨n, m', hn, hr⟩ := h
  exact ⟨n, m', hr, fun fuel hf => (eof_mono hf m).ok hn⟩

/-- A matcher that does the same with the first character comes to the same. -/
theorem Drives.of_like {k : Match κ σ τ} (h : Drives P m (c :: w) s out)
    (hlike : ∀ m' b, Pushes P m c.1 m' b → Pushes P k c.1 m' b) : Drives P k (c :: w) s out := by
  cases h with
  | taken h hr hw => exact .taken (hlike _ _ h) hr hw
  | done h hr => exact .done (hlike _ _ h) hr
  | late h hr => exact .late (hlike _ _ h) hr
  | fail h hm => exact .fail (hlike _ _ h) hm
  | stall h hr hw => exact .stall (hlike _ _ h) hr hw

/-- What is left is not more than there was, and less where the last character has
been taken. -/
theorem Drives.length_le (h : Drives P m w s out) :
    (∀ late rest, out = .done late rest → rest.length ≤ w.length ∧
      (late = false → rest.length < w.length)) ∧
      ∀ rest, out = .fail rest → rest.length ≤ w.length := by
  induction h with
  | stop _ => exact ⟨nofun, nofun⟩
  | @taken m m' c w s out h hr hw ih =>
    refine ⟨fun late rest ho => ?_, fun rest ho => (ih.2 rest ho).trans (Nat.le_succ _)⟩
    obtain ⟨hle, hlt⟩ := ih.1 late rest ho
    exact ⟨hle.trans (Nat.le_succ _), fun hl => (hlt hl).trans (Nat.lt_succ_self _)⟩
  | done _ _ =>
    refine ⟨fun late rest ho => ?_, nofun⟩
    rw [← (Out.done.inj ho).2]
    exact ⟨Nat.le_succ _, fun _ => Nat.lt_succ_self _⟩
  | late _ _ =>
    refine ⟨fun late rest ho => ?_, nofun⟩
    obtain ⟨rfl, rfl⟩ := Out.done.inj ho
    exact ⟨le_refl _, nofun⟩
  | fail _ _ => exact ⟨nofun, fun rest ho => (congrArg List.length (Out.fail.inj ho)).symm.le⟩
  | stall _ _ _ ih => exact ih

/-- At the end of the text a matcher is asked for its result. -/
theorem Drives.ends (h : Drives P m [] s out) : ∃ ok, out = .stop ok ∧ Ends P m ok := by
  cases h with
  | stop h => exact ⟨_, rfl, h⟩

/-- The first character is refused where nothing less is left of the text. -/
theorem Drives.refuses (h : Drives P m (c :: w) false (.fail (c :: w))) :
    ∃ m', Pushes P m c.1 m' false ∧ Failed P m' := by
  cases h with
  | taken h hr hw => exact absurd (hw.length_le.2 _ rfl) (Nat.not_succ_le_self _)
  | fail h hm => exact ⟨_, h, hm⟩

/-- And so it is where the matcher has done without a character. -/
theorem Drives.passes {late : Bool} (h : Drives P m (c :: w) false (.done late (c :: w))) :
    ∃ m', Pushes P m c.1 m' false ∧ m'.result = some true ∧ late = true := by
  cases h with
  | taken h hr hw => exact absurd (hw.length_le.1 _ _ rfl).1 (Nat.not_succ_le_self _)
  | late h hr => exact ⟨_, h, hr, rfl⟩

/-- With the first character a matcher has done. -/
theorem Drives.finds (h : Drives P m (c :: w) false (.done false w)) :
    ∃ m', Pushes P m c.1 m' true ∧ m'.result = some true := by
  cases h with
  | taken h hr hw => exact absurd ((hw.length_le.1 _ _ rfl).2 rfl) (lt_irrefl _)
  | done h hr => exact ⟨_, h, hr⟩

/-! ### Characters and words -/

theorem drives_one {set : CharacterSet} (h : ∃ c, set.holds c) : ∀ w : List Character,
    ∃ out, Drives P (set.matcher : Match κ σ τ) w false out ∧
      Tells ((Expr.one set).lang CharacterSet.holds) w out
  | [] => by
    refine ⟨.stop false, .stop ⟨1, ?_⟩, tells_waits ?_ (h.imp' (fun c => [c]) fun c hc =>
      ⟨c, hc, rfl⟩)⟩
    · cases set with
      | character _ => exact ⟨_, rfl, rfl⟩
      | range _ _ => exact ⟨_, rfl, rfl⟩
    · rintro ⟨c, -, hc⟩
      cases hc
  | c :: w => by
    have hpush : ∃ m' : Match κ σ τ, Pushes P set.matcher c.1 m' (set.holds c) ∧
      m'.result = some (set.holds c) ∧
        (set.holds c = false → Ends P m' false) := by
      cases set with
      | character _ => exact ⟨_, ⟨1, rfl⟩, rfl, fun h => ⟨1, _, rfl, congrArg some h⟩⟩
      | range _ _ => exact ⟨_, ⟨1, rfl⟩, rfl, fun h => ⟨1, _, rfl, congrArg some h⟩⟩
    obtain ⟨m', hpush, hr, hends⟩ := hpush
    have hlang : ∀ v, c :: v ∈ (Expr.one set).lang CharacterSet.holds → set.holds c ∧ v = [] := by
      rintro v ⟨d, hd, heq⟩
      obtain ⟨rfl, rfl⟩ := List.cons.inj heq
      exact ⟨hd, rfl⟩
    cases hc : set.holds c with
    | true =>
      rw [hc] at hpush hr
      exact ⟨.done false w, .done hpush hr, tells_taken ⟨c, hc, rfl⟩ fun v hv => (hlang v hv).2⟩
    | false =>
      rw [hc] at hpush hr
      refine ⟨.fail (c :: w), .fail hpush ⟨hr, hends hc⟩, tells_refused (fun v hv => ?_) ?_ ?_⟩
      · exact absurd (hlang v hv).1 (by simp [hc])
      · rintro ⟨d, -, hd⟩
        cases hd
      · exact h.imp' (fun c => [c]) fun c hc => ⟨c, hc, rfl⟩

theorem bytes_ne_nil {w : List Character} (h : w ≠ []) : Pattern.bytes w ≠ [] := by
  obtain ⟨c, w, rfl⟩ := List.exists_cons_of_ne_nil h
  exact fun he => c.2.ne_nil (List.append_eq_nil_iff.mp he).1

theorem drives_word : ∀ (letters w : List Character), letters ≠ [] →
    ∃ out, Drives P (word id (Pattern.bytes letters) none : Match κ σ τ) w false out ∧
      Tells ({letters} : Language Character) w out
  | [], _, h0 => absurd rfl h0
  | a :: letters, [], h0 => by
    have hindex := bytes_ne_nil h0
    refine ⟨.stop false, .stop ⟨1, _, rfl, by simp [Match.result, setResult, hindex]⟩,
      tells_waits ?_ ⟨_, rfl⟩⟩
    exact fun hmem => h0 (show [] = a :: letters from hmem).symm
  | a :: letters, c :: w, h0 => by
    have hindex := bytes_ne_nil h0
    have hbytes : Pattern.bytes (a :: letters) = a.1 ++ Pattern.bytes letters := rfl
    by_cases hc : c = a
    · subst hc
      have hrun := Parser.matches_word (P := P) (k := 0) hindex
        (hbytes ▸ List.prefix_append c.1 (Pattern.bytes letters))
      rw [hbytes, List.drop_left] at hrun
      by_cases hlast : letters = []
      · subst hlast
        refine ⟨.done false w, .done ⟨1, hrun⟩ rfl, tells_taken rfl fun v hv => ?_⟩
        exact (List.cons.inj (show c :: v = [c] from hv)).2
      · rw [if_neg (bytes_ne_nil hlast)] at hrun
        obtain ⟨out, hdrive, htells⟩ := drives_word letters w hlast
        exact ⟨out, .taken ⟨1, hrun⟩ rfl hdrive, tells_cons htells⟩
    · have hpre : ¬ c.1 <+: Pattern.bytes (a :: letters) :=
        fun hpre => hc (Subtype.ext (c.2.eq_of_isPrefix a.2 hpre))
      obtain ⟨index, hrun⟩ := Parser.matches_word_fails (P := P) (k := 0) hindex hpre
      refine ⟨.fail (c :: w), .fail ⟨1, hrun⟩ ⟨rfl, 1, _, rfl, rfl⟩, tells_refused (fun v hv => ?_)
        ?_ ⟨_, rfl⟩⟩
      · exact hc (List.cons.inj (show c :: v = a :: letters from hv)).1
      · exact fun hmem => h0 (show [] = a :: letters from hmem).symm

/-! ### Options -/

theorem pushes_optional {c : BString} {b : Bool} (h : Pushes P m c m' b) :
    Pushes P (optional m none) c (optional m' (m'.result.map fun _ => true)) b := by
  obtain ⟨fuel, hrun⟩ := h
  refine ⟨fuel + 1, ?_⟩
  rw [matches_, hrun, Run.ok_bind]
  cases hr : m'.result with
  | none => simp [hr]
  | some r => simp [hr, setResult]

theorem ends_optional {ok : Bool} (h : Ends P m ok) : Ends P (.optional m none) true := by
  obtain ⟨fuel, m', hrun, -⟩ := h
  exact ⟨fuel + 1, _, by rw [eof, hrun]; rfl, rfl⟩

/-- An option is done where the part is or fails. -/
theorem Drives.optional (h : Drives P m w s out) :
    Drives P (.optional m none) w s out.optional := by
  induction h with
  | stop h => exact .stop (ends_optional h)
  | taken h hr _ ih =>
    have hpush := pushes_optional h
    rw [hr] at hpush
    exact .taken hpush (by simp [Match.result, hr]) ih
  | done h hr => exact .done (pushes_optional h) (by simp [Match.result, hr])
  | late h hr => exact .late (pushes_optional h) (by simp [Match.result, hr])
  | fail h hm => exact .late (pushes_optional h) (by simp [Match.result, hm.result])
  | stall h hr _ ih =>
    have hpush := pushes_optional h
    rw [hr] at hpush
    exact .stall hpush (by simp [Match.result, hr]) ih

/-! ### Repetitions -/

section

variable {create : Match κ σ τ} {minimum maximum count : ℕ} {c : BString} {b : Bool}

theorem pushes_repeated_none {start : Option (Match κ σ τ)}
    (h : Pushes P (start.getD create) c m' b) (hr : m'.result = none) :
    Pushes P (repeated create start minimum maximum count none) c
      (repeated create (some m') minimum maximum count none) b := by
  obtain ⟨fuel, hrun⟩ := h
  refine ⟨fuel + 1, ?_⟩
  rw [matches_, if_neg nofun, hrun, Run.ok_bind]
  simp [hr]

theorem pushes_repeated_false (create : Match κ σ τ) (start : Option (Match κ σ τ))
    (minimum maximum count : ℕ) (h : Pushes P (start.getD create) c m' b)
    (hr : m'.result = some false) :
    Pushes P (repeated create start minimum maximum count none) c
      (repeated create (some m') minimum maximum count (some (decide (minimum ≤ count))))
        false := by
  obtain ⟨fuel, hrun⟩ := h
  refine ⟨fuel + 1, ?_⟩
  rw [matches_, if_neg nofun, hrun, Run.ok_bind]
  simp [hr]

/-- After an item there is a new one, or the last one has been found. -/
theorem pushes_repeated_true (create : Match κ σ τ) (start : Option (Match κ σ τ))
    (minimum maximum count : ℕ) (h : Pushes P (start.getD create) c m' b)
    (hr : m'.result = some true)
    (hcount : maximum = 0 ∨ count < maximum) :
    Pushes P (repeated create start minimum maximum count none) c
      (repeated create (some create) minimum maximum (count + 1)
        (if 0 < maximum ∧ count + 1 = maximum then some true else none)) b := by
  obtain ⟨fuel, hrun⟩ := h
  refine ⟨fuel + 1, ?_⟩
  rw [matches_, if_neg nofun, hrun, Run.ok_bind]
  have hres :
      (if 0 < maximum then
        if count + 1 = maximum then some true else if maximum < count + 1 then some false else none
      else none) =
        if 0 < maximum ∧ count + 1 = maximum then some true else none := by
    split_ifs <;> first | rfl | omega
  simp only [hr, hres]
  rfl

theorem ends_repeated {ok : Bool} (h : Ends P m ok) (hm : m.result = none)
    (hcount : maximum = 0 ∨ count < maximum) :
    Ends P (repeated create (some m) minimum maximum count none)
      (decide (minimum ≤ if ok then count + 1 else count)) := by
  obtain ⟨fuel, m', hrun, hr⟩ := h
  refine ⟨fuel + 1, repeated create (some m') minimum maximum (if ok then count + 1 else count)
    (some (decide (minimum ≤ if ok then count + 1 else count))), ?_, rfl⟩
  rw [eof]
  simp only [hm, hrun, Run.ok_bind, hr, setResult]
  have hmax :
      (decide ((if ok = true then count + 1 else count) ≤ maximum) || decide (maximum = 0)) =
        true := by
    rw [Bool.or_eq_true, decide_eq_true_iff, decide_eq_true_iff]
    split_ifs <;> omega
  simp [hmax]

/-- A repetition in an item comes to what the item comes to, and what comes
after. -/
theorem Drives.repeated_some {out' : Out Character} {after : Bool} (h : Drives P m w s out)
    (hm : m.result = none)
    (hcreate : create.result = none) (hcount : maximum = 0 ∨ count < maximum)
    (hdone : ∀ late rest, out = .done late rest →
      if 0 < maximum ∧ count + 1 = maximum then out' = .done late rest ∧ after = false
      else ∃ s', Drives P (repeated create (some create) minimum maximum (count + 1) none)
        rest s' out' ∧ after = (late || s'))
    (hfail : ∀ rest, out = .fail rest →
      (out' = if minimum ≤ count then .done true rest else .fail rest) ∧ after = false)
    (hstop : ∀ ok, out = .stop ok →
      out' = .stop (decide (minimum ≤ if ok then count + 1 else count)) ∧ after = false) :
    Drives P (repeated create (some m) minimum maximum count none) w (s || after) out' := by
  induction h with
  | @stop m ok h =>
    obtain ⟨rfl, rfl⟩ := hstop ok rfl
    exact .stop (ends_repeated h hm hcount)
  | taken h hr _ ih =>
    exact .taken (pushes_repeated_none h hr) hr (ih hr hdone hfail hstop)
  | @done m m' c w h hr =>
    have hpush := pushes_repeated_true create (some m) minimum maximum count h hr hcount
    have hdone := hdone false w rfl
    split_ifs at hdone hpush with hlast
    · obtain ⟨rfl, rfl⟩ := hdone
      exact .done hpush rfl
    · obtain ⟨s', hdrive, rfl⟩ := hdone
      exact .taken hpush hcreate hdrive
  | @late m m' c w h hr =>
    have hpush := pushes_repeated_true create (some m) minimum maximum count h hr hcount
    have hdone := hdone true (c :: w) rfl
    split_ifs at hdone hpush with hlast
    · obtain ⟨rfl, rfl⟩ := hdone
      exact .late hpush rfl
    · obtain ⟨s', hdrive, rfl⟩ := hdone
      exact .stall hpush hcreate hdrive
  | @fail m m' c w h hm' =>
    have hpush := pushes_repeated_false create (some m) minimum maximum count h hm'.result
    obtain ⟨rfl, rfl⟩ := hfail (c :: w) rfl
    split_ifs with hmin
    · rw [decide_eq_true hmin] at hpush
      exact .late hpush rfl
    · rw [decide_eq_false hmin] at hpush
      refine .fail hpush ⟨rfl, 1, repeated create (some m') minimum maximum count
        (some false), ?_, rfl⟩
      rw [eof]
      simp [hm'.result, setResult]
  | stall h hr _ ih => exact .stall (pushes_repeated_none h hr) hr (ih hr hdone hfail hstop)

end

/-- Before the first character there is no item. -/
theorem Drives.repeated_start {create : Match κ σ τ} {minimum maximum : ℕ}
    (h : Drives P (repeated create (some create) minimum maximum 0 none) (c :: w) s out) :
    Drives P (repeated create none minimum maximum 0 none) (c :: w) s out := by
  refine h.of_like fun m' b hpush => ?_
  obtain ⟨fuel, hrun⟩ := hpush
  refine ⟨fuel, ?_⟩
  cases fuel with
  | zero => cases hrun
  | succ fuel => exact hrun

theorem ends_repeated_start (create : Match κ σ τ) (minimum maximum : ℕ) :
    Ends P (repeated create none minimum maximum 0 none) (decide (minimum = 0)) := by
  refine ⟨1, repeated create none minimum maximum 0 (some (decide (minimum = 0))), ?_, rfl⟩
  simp [eof, setResult]

/-! ### Sequences -/

variable (P) in
/-- What the parts of a sequence say at the end of the text. -/
def AndEnds (ms : List (Match κ σ τ)) (ok : Bool) : Prop :=
  ∃ n ms', ∀ fuel, n ≤ fuel → andEof (eof P fuel) ms = .ok (ms', ok, [])

theorem andEnds_nil : AndEnds P ([] : List (Match κ σ τ)) true := ⟨0, [], fun _ _ => rfl⟩

/-- The first part that may not be empty ends the questions. -/
theorem Ends.andEnds {ms : List (Match κ σ τ)} {ok ok' : Bool} (h : Ends P m ok)
    (hms : ok = true → AndEnds P ms ok') : AndEnds P (m :: ms) (ok && ok') := by
  obtain ⟨n, m', hr, hrun⟩ := h.more
  cases ok with
  | true =>
    obtain ⟨n', ms', hruns⟩ := hms rfl
    refine ⟨max n n', m' :: ms', fun fuel hf => ?_⟩
    rw [andEof, hrun fuel (le_of_max_le_left hf), Run.ok_bind]
    simp [hr, hruns fuel (le_of_max_le_right hf)]
  | false =>
    refine ⟨n, m' :: ms, fun fuel hf => ?_⟩
    rw [andEof, hrun fuel hf, Run.ok_bind]
    simp [hr]

section

variable {inputs inputs' : List (Match κ σ τ)} {i k : ℕ} {c : BString} {b : Bool}

theorem getElem?_input (before after : List (Match κ σ τ)) (m : Match κ σ τ) :
    (before ++ m :: after)[before.length]? = some m := by simp

theorem set_input (before after : List (Match κ σ τ)) (m m' : Match κ σ τ) :
    (before ++ m :: after).set before.length m' = before ++ m' :: after := by simp

/-- One turn of the loop of `And`. -/
theorem pushes_and {n : Match κ σ τ} (hm : Pushes P m c m' b)
    (hloop : ∀ (f : Match κ σ τ → Run φ (Matched κ σ τ)) fuel, f m = .ok (m', b, []) →
      andLoop f (fuel + 1) inputs i = .ok (n, matched, [])) : Pushes P (and inputs i none)
        c n matched := by
  obtain ⟨fuel, hrun⟩ := hm
  refine ⟨fuel + 2, ?_⟩
  rw [matches_, if_neg nofun]
  exact hloop _ fuel ((matches_mono c (Nat.le_succ fuel) m).ok hrun)

/-- One turn of the loop of `And`, after which it goes on with the character. -/
theorem pushes_and_goOn {n : Match κ σ τ} (hm : Pushes P m c m' b)
    (hloop : ∀ (f : Match κ σ τ → Run φ (Matched κ σ τ)) fuel, f m = .ok (m', b, []) →
      andLoop f (fuel + 1) inputs i = goOn [] (andLoop f fuel inputs' k))
    (h : Pushes P (and inputs' k none) c n matched) : Pushes P (and inputs i none) c n matched := by
  obtain ⟨fuel, hrun⟩ := hm
  obtain ⟨fuel', hand⟩ := h
  cases fuel' with
  | zero => exact absurd hand nofun
  | succ fuel' =>
    rw [matches_, if_neg nofun] at hand
    refine ⟨max fuel fuel' + 2, ?_⟩
    rw [matches_, if_neg nofun, hloop _ (max fuel fuel') ((matches_mono c (by omega) m).ok hrun),
      goOn_nil]
    exact (andLoop_mono (matches_mono c (by omega)) (le_max_right fuel fuel') inputs' k).ok hand

end

/-- A sequence in an input comes to what the input comes to, and what comes
after; it pushes a character again where the input has stalled. -/
theorem Drives.and_some {out' : Out Character} {before after : List (Match κ σ τ)}
    (h : Drives P m w s out) (hm : m.result = none)
    (hdone : ∀ late rest, out = .done late rest → if after = [] then out' = .done late rest
      else ∀ m', Drives P (and (before ++ m' :: after) (before.length + 1) none) rest false out')
    (hfail : ∀ rest, out = .fail rest → out' = .fail rest)
    (hstop : ∀ ok, out = .stop ok → ∃ ok', out' = .stop (ok && ok') ∧
      (ok = true → AndEnds P after ok')) :
    Drives P (and (before ++ m :: after) before.length none) w false out' := by
  have hget := fun m : Match κ σ τ => getElem?_input before after m
  have hset := fun m m' : Match κ σ τ => set_input before after m m'
  have hlength : ∀ m' : Match κ σ τ, before.length + 1 = (before ++ m' :: after).length ↔
    after = [] := by
    intro m'
    rw [List.length_append, List.length_cons, ← List.length_eq_zero_iff]
    omega
  induction h with
  | @stop m ok h =>
    obtain ⟨ok', hout, hends⟩ := hstop ok rfl
    obtain ⟨n, ms, hrun⟩ := h.andEnds hends
    rw [hout]
    refine .stop ⟨n + 1, and (before ++ ms) before.length (some (ok && ok')), ?_, rfl⟩
    rw [eof, if_neg nofun, List.drop_left, hrun n (le_refl n), Run.ok_bind]
    simp
  | @taken m m' c w s out h hr _ ih =>
    refine .taken (pushes_and h fun f fuel hf => ?_) rfl (ih hr hdone hfail hstop)
    rw [andLoop_more fuel (hget m) hf hr, hset]
  | @done m m' c w h hr =>
    have hdone := hdone false w rfl
    split_ifs at hdone with hafter
    · rw [hdone]
      have hpush : Pushes P (and (before ++ m :: after) before.length none) c.1
          (and (before ++ m' :: after) (before.length + 1) (some true)) true :=
            pushes_and h fun f fuel hf => by
        rw [andLoop_last fuel (hget m) hf hr (by rw [hset, hlength, hafter]), hset]
      exact .done hpush rfl
    · refine .taken (pushes_and h fun f fuel hf => ?_) rfl (hdone m')
      rw [andLoop_taken fuel (hget m) hf hr (by rwa [hset, ne_eq, hlength]), hset]
  | @late m m' c w h hr =>
    have hdone := hdone true (c :: w) rfl
    split_ifs at hdone with hafter
    · rw [hdone]
      have hpush : Pushes P (and (before ++ m :: after) before.length none) c.1
          (and (before ++ m' :: after) (before.length + 1) (some true)) false :=
            pushes_and h fun f fuel hf => by
        rw [andLoop_last fuel (hget m) hf hr (by rw [hset, hlength, hafter]), hset]
      exact .late hpush rfl
    · refine (hdone m').of_like fun n b hn => pushes_and_goOn h (fun f fuel hf => ?_) hn
      rw [andLoop_next fuel (hget m) hf hr (by rwa [hset, ne_eq, hlength]), hset]
  | @fail m m' c w h hm' =>
    rw [hfail (c :: w) rfl]
    have hpush : Pushes P (and (before ++ m :: after) before.length none) c.1
        (and (before ++ m' :: after) before.length (some false)) false :=
          pushes_and h fun f fuel hf => by
      rw [andLoop_failed fuel (hget m) hf hm'.result, hset]
    exact .fail hpush ⟨rfl, 1, _, rfl, rfl⟩
  | @stall m m' c w s out h hr _ ih =>
    refine (ih hr hdone hfail hstop).of_like fun n b hn =>
      pushes_and_goOn h (fun f fuel hf => ?_) hn
    rw [andLoop_again fuel (hget m) hf hr, hset]

/-! ### Alternatives -/

theorem orEof_ends {ms : List (Match κ σ τ)} {oks : List Bool} (h : List.Forall₂ (Ends P) ms oks) :
    ∃ n, ∀ before,
    ∃ ms' found, found.isSome = oks.any id ∧ ∀ fuel, n ≤ fuel → orEof (eof P fuel) before ms =
      .ok (ms', found, []) := by
  induction h with
  | nil => exact ⟨0, fun before => ⟨before, none, rfl, fun _ _ => rfl⟩⟩
  | @cons m ok ms oks hm _ ih =>
    obtain ⟨n, m', hr, hrun⟩ := hm.more
    obtain ⟨n', hruns⟩ := ih
    refine ⟨max n n', fun before => ?_⟩
    cases ok with
    | true =>
      refine ⟨before ++ m' :: ms, some before.length, rfl, fun fuel hf => ?_⟩
      rw [orEof, hrun fuel (le_of_max_le_left hf), Run.ok_bind]
      simp [hr]
    | false =>
      obtain ⟨ms', found, hfound, hms⟩ := hruns (before ++ [m'])
      refine ⟨ms', found, hfound, fun fuel hf => ?_⟩
      rw [orEof, hrun fuel (le_of_max_le_left hf), Run.ok_bind]
      simp [hr, hms fuel (le_of_max_le_right hf)]

theorem ends_or {ms : List (Match κ σ τ)} {oks : List Bool} (h : List.Forall₂ (Ends P) ms oks) :
    Ends P (or ms none none) (oks.any id) := by
  obtain ⟨n, hn⟩ := orEof_ends h
  obtain ⟨ms', found, hfound, hrun⟩ := hn []
  refine ⟨n + 1, or ms' found (some found.isSome), ?_, by rw [hfound]; rfl⟩
  rw [eof, if_neg nofun, hrun n (le_refl n), Run.ok_bind]
  rfl

variable (P) in
/-- An input that fails with the character, or has failed. -/
def Refused (c : BString) (m m' : Match κ σ τ) : Prop :=
  Failed P m' ∧ (m' = m ∨ (m.result = none ∧ Pushes P m c m' false))

theorem orLoop_refused {c : BString} {ms ms' : List (Match κ σ τ)}
    (h : List.Forall₂ (Refused P c) ms ms') :
    ∃ n, ∀ fuel, n ≤ fuel → ∀ before matched inputs, orLoop (matches_ P fuel · c) before matched
      (ms ++ inputs) =
      orLoop (matches_ P fuel · c) (before ++ ms') matched inputs := by
  induction h with
  | nil => exact ⟨0, fun _ _ before matched inputs => by rw [List.append_nil, List.nil_append]⟩
  | @cons m m' ms ms' hm _ ih =>
    obtain ⟨n, hn⟩ := ih
    obtain ⟨hfailed, rfl | ⟨hr, hpush⟩⟩ := hm
    · refine ⟨n, fun fuel hf before matched inputs => ?_⟩
      rw [List.cons_append, orLoop_failed before hfailed.result, hn fuel hf, List.append_assoc]
      rfl
    · obtain ⟨n', hn'⟩ := hpush.more
      refine ⟨max n n', fun fuel hf before matched inputs => ?_⟩
      rw [List.cons_append, orLoop_more before hr (hn' fuel (le_of_max_le_right hf))
        (by rw [hfailed.result]; nofun),
        Bool.or_false, hn fuel (le_of_max_le_left hf), List.append_assoc]
      rfl

section

variable {before before' after after' : List (Match κ σ τ)} {c : BString} {b : Bool}

theorem pushes_or_found (hbefore : List.Forall₂ (Refused P c) before before')
    (h : Pushes P m c m' b) (hm : m.result = none)
    (hr : m'.result = some true) :
    Pushes P (or (before ++ m :: after) none none) c
      (or (before' ++ m' :: after) (some before'.length) (some true)) b := by
  obtain ⟨n, hn⟩ := orLoop_refused hbefore
  obtain ⟨n', hn'⟩ := h.more
  refine ⟨max n n' + 1, ?_⟩
  have hloop := hn (max n n') (le_max_left n n') [] false (m :: after)
  rw [List.nil_append, orLoop_found before' hm (hn' (max n n') (le_max_right n n')) hr,
    Bool.false_or] at hloop
  exact matches_or_found (max n n') hloop

theorem pushes_or_none (hbefore : List.Forall₂ (Refused P c) before before')
    (hafter : List.Forall₂ (Refused P c) after after')
    (h : Pushes P m c m' b) (hm : m.result = none) (hr : m'.result ≠ some true) :
    Pushes P (or (before ++ m :: after) none none) c
      (or (before' ++ m' :: after') none (if b then none else some false)) b := by
  obtain ⟨n, hn⟩ := orLoop_refused hbefore
  obtain ⟨k, hk⟩ := orLoop_refused hafter
  obtain ⟨n', hn'⟩ := h.more
  refine ⟨max (max n k) n' + 1, ?_⟩
  have hloop := hn (max (max n k) n') (by omega) [] false (m :: after)
  have hrest := hk (max (max n k) n') (by omega) (before' ++ [m']) b []
  rw [List.append_nil, List.append_assoc, List.singleton_append] at hrest
  rw [List.nil_append, orLoop_more before' hm (hn' _ (le_max_right _ n')) hr, Bool.false_or,
    hrest] at hloop
  exact matches_or_none (max (max n k) n') hloop

theorem pushes_or_fails (h : List.Forall₂ (Refused P c) before before') :
    Pushes P (or before none none) c (or before' none (some false)) false := by
  obtain ⟨n, hn⟩ := orLoop_refused h
  have hloop := hn n (le_refl n) [] false []
  rw [List.append_nil, List.nil_append] at hloop
  exact ⟨n + 1, matches_or_none n hloop⟩

end

section

variable {before before' after after' : List (Match κ σ τ)}

/-- The one alternative that a character does not refuse goes on. -/
theorem Drives.or_cons (h : Drives P m (c :: w) false out) (hm : m.result = none)
    (hbefore : List.Forall₂ (Refused P c.1) before before')
    (hafter : List.Forall₂ (Refused P c.1) after after')
    (hgo : ∀ m', m'.result = none → Drives P m' w false out →
      Drives P (or (before' ++ m' :: after') none none) w false out) :
    Drives P (or (before ++ m :: after) none none) (c :: w) false out := by
  cases h with
  | taken h hr hw =>
    exact .taken (pushes_or_none hbefore hafter h hm (by rw [hr]; nofun)) rfl (hgo _ hr hw)
  | done h hr => exact .done (pushes_or_found hbefore h hm hr) rfl
  | late h hr => exact .late (pushes_or_found hbefore h hm hr) rfl
  | fail h hm' =>
    exact .fail (pushes_or_none hbefore hafter h hm (by rw [hm'.result]; nofun))
      ⟨rfl, 1, _, rfl, rfl⟩

theorem refused_failed {c : BString} (h : ∀ k ∈ before, Failed P k) :
    List.Forall₂ (Refused P c) before before :=
  List.forall₂_same.mpr fun k hk => ⟨h k hk, Or.inl rfl⟩

/-- Once the others have failed, the alternatives come to what the one comes to. -/
theorem drives_or_failed (hbefore : ∀ k ∈ before, Failed P k) (hafter : ∀ k ∈ after, Failed P k) :
    ∀ (w : List Character) {m : Match κ σ τ}, Drives P m w false out → m.result = none →
      Drives P (or (before ++ m :: after) none none) w false out
  | [], m, h, _ => by
    cases h with
    | @stop _ ok h =>
      have hfalse : ∀ {ks : List (Match κ σ τ)}, (∀ k ∈ ks, Failed P k) →
          List.Forall₂ (Ends P) ks (ks.map fun _ => false) := fun hks =>
        List.forall₂_map_right_iff.mpr (List.forall₂_same.mpr fun k hk => (hks k hk).ends)
      have hends := ends_or (List.rel_append (hfalse hbefore) (.cons h (hfalse hafter)))
      refine .stop ?_
      simpa using hends
  | c :: w, m, h, hm =>
    h.or_cons hm (refused_failed hbefore) (refused_failed hafter) fun _ hm' hw =>
      drives_or_failed hbefore hafter w hw hm'

end

end Match

namespace Pattern

open Match

variable {P : Program κ σ τ φ}

theorem matchers_eq : ∀ es : List Pattern, (matchers es : List (Match κ σ τ)) = es.map matcher
  | [] => rfl
  | e :: es => congrArg (matcher e :: ·) (matchers_eq es)

/-- Pushed a text with nothing in its way the matcher comes to what is right about the
text, and does not stall where nobody would give it a character again. -/
def Follows (P : Program κ σ τ φ) (e : Pattern) : Prop :=
  ∀ again w, e.Clear CharacterSet.holds again w →
    ∃ s out, Drives P (matcher e) w s out ∧ Tells (e.lang CharacterSet.holds) w out ∧
      (again = false → s = false)

theorem Follows.ends {e : Pattern} {again : Bool} (h : Follows P e)
    (hclear : e.Clear CharacterSet.holds again []) :
    ∃ ok, Ends P (matcher e) ok ∧ Tells (e.lang CharacterSet.holds) [] (.stop ok) := by
  obtain ⟨s, out, hdrive, htells, -⟩ := h again [] hclear
  obtain ⟨ok, rfl, hends⟩ := hdrive.ends
  exact ⟨ok, hends, htells⟩

/-- An alternative that is not given a character again does not stall. -/
theorem Follows.drives {e : Pattern} {w : List Character} (h : Follows P e)
    (hclear : e.Clear CharacterSet.holds false w) :
    ∃ out, Drives P (matcher e) w false out ∧ Tells (e.lang CharacterSet.holds) w out := by
  obtain ⟨s, out, hdrive, htells, hs⟩ := h false w hclear
  exact ⟨out, hs rfl ▸ hdrive, htells⟩

theorem follows_opt {e : Pattern} (h : Follows P e) : Follows P (.opt e) := by
  rintro again w ⟨hclear, hfinished⟩
  obtain ⟨s, out, hdrive, htells, hs⟩ := h again w hclear
  exact ⟨s, out.optional, hdrive.optional, htells.opt hfinished, hs⟩

/-! ### Items -/

section

variable {e : Pattern} {minimum maximum : ℕ} {again : Bool}

/-- The items of a repetition, from one on, each with a character at least if there
is another. -/
theorem follows_items (h : Follows P e) (hne : ∃ a, a ∈ e.lang CharacterSet.holds)
    (hA : maximum ≠ 1 → [] ∉ e.lang CharacterSet.holds ∧ Apart (e.lang CharacterSet.holds)
      (e.lang CharacterSet.holds))
    (hbounds : maximum = 0 ∨ minimum ≤ maximum) {w : List Character}
    (hclear : (Expr.rep e minimum maximum).Clear CharacterSet.holds again w) :
    ∀ (fuel count : ℕ) (v : List Character),
    v.length < fuel → (maximum = 0 ∨ count < maximum) →
      Items (e.lang CharacterSet.holds) count w v →
      ∃ s out, Drives P (repeated (matcher e) (some (matcher e)) minimum maximum count none)
        v s out ∧
        Tells (repeated (e.lang CharacterSet.holds) minimum maximum count) v out ∧
          (again = false → s = false)
  | 0, _, _, hfuel, _, _ => absurd hfuel (Nat.not_lt_zero _)
  | fuel + 1, count, v, hfuel, hcount, hitems => by
    obtain ⟨hitem, hfinished, hlate⟩ := hclear.2 count v hitems hcount
    obtain ⟨s, out, hdrive, htells, hs⟩ := h again v hitem
    have hresult := result_matcher (κ := κ) (σ := σ) (τ := τ) e
    cases out with
    | done late rest =>
      by_cases hlast : 0 < maximum ∧ count + 1 = maximum
      · refine ⟨s || false, .done late rest, hdrive.repeated_some hresult hresult hcount ?_ nofun
          nofun, ?_, by simpa using hs⟩
        · intro late' rest' heq
          rw [if_pos hlast]
          exact ⟨heq, rfl⟩
        · exact htells.item_last hA hne hbounds hcount hlast.2
      · obtain ⟨u, hdone, hl⟩ := htells
        have hnil := (hA (by omega)).1
        have hu : u ≠ [] := fun hu => hnil (hu ▸ hdone.mem)
        have hlength : rest.length < v.length := by
          rw [hdone.eq, List.length_append]
          exact Nat.lt_add_of_pos_left (List.length_pos_iff.mpr hu)
        obtain ⟨s', out', hdrive', htells', hs'⟩ :=
          follows_items h hne hA hbounds hclear fuel (count + 1) rest
          (by omega) (by omega) (hitems.next hdone)
        refine ⟨s || (late || s'), out', hdrive.repeated_some hresult hresult hcount ?_ nofun nofun,
          hdone.item_next hA hne hcount hu htells', fun hagain => ?_⟩
        · intro late' rest' heq
          obtain ⟨rfl, rfl⟩ := Out.done.inj heq
          rw [if_neg hlast]
          exact ⟨s', hdrive', rfl⟩
        · -- nobody gives the character again, and so none has ended the item
          have hnone : late = false := by
            cases late with
            | false => rfl
            | true =>
              obtain ⟨hrest, hon⟩ := hl rfl
              exact absurd (hlate hagain (by omega) u rest hdone hon) hrest
          rw [hs hagain, hs' hagain, hnone]
          rfl
    | fail rest =>
      refine ⟨s || false, _, hdrive.repeated_some hresult hresult hcount nofun
        (fun rest' heq => ?_) nofun,
        htells.item_fail hA hne hbounds hcount hfinished, by simpa using hs⟩
      rw [Out.fail.inj heq]
      exact ⟨rfl, rfl⟩
    | stop ok =>
      refine ⟨s || false, _, hdrive.repeated_some hresult hresult hcount nofun nofun
        (fun ok' heq => ?_),
        htells.item_stop hA hne hbounds hcount hfinished, by simpa using hs⟩
      rw [Out.stop.inj heq]
      exact ⟨rfl, rfl⟩

theorem follows_rep (h : Follows P e) (hne : ∃ a, a ∈ e.lang CharacterSet.holds)
    (hA : maximum ≠ 1 → [] ∉ e.lang CharacterSet.holds ∧ Apart (e.lang CharacterSet.holds)
      (e.lang CharacterSet.holds))
    (hbounds : maximum = 0 ∨ minimum ≤ maximum) : Follows P (.rep e minimum maximum) := by
  intro again w hclear
  have hcount : maximum = 0 ∨ 0 < maximum := by omega
  cases w with
  | nil =>
    obtain ⟨ok, -, htells⟩ := h.ends (hclear.2 0 [] (.none []) hcount).1
    have hon : GoesOn (repeated (e.lang CharacterSet.holds) minimum maximum 0) [] :=
      htells.1.item hne hbounds hcount
    refine ⟨false, .stop (decide (minimum = 0)), .stop (ends_repeated_start _ minimum maximum),
      ⟨hon, ?_⟩, fun _ => rfl⟩
    rw [decide_eq_true_iff]
    refine ⟨fun hmin => mem_repeated.mpr (Or.inl ⟨hmin.le, by omega, rfl⟩), fun hmem => ?_⟩
    by_contra hmin
    rcases mem_repeated.mp hmem with ⟨hle, -⟩ | hmul
    · exact hmin (Nat.le_zero.mp hle)
    · obtain ⟨a, ha, b, -, heq⟩ := Language.mem_mul.mp hmul
      exact hclear.1 rfl hmin ((List.append_eq_nil_iff.mp heq).1 ▸ ha)
  | cons c w =>
    obtain ⟨s, out, hdrive, htells, hs⟩ :=
      follows_items h hne hA hbounds hclear _ 0 (c :: w) (Nat.lt_succ_self _)
      hcount (.none _)
    exact ⟨s, out, hdrive.repeated_start, htells, hs⟩

end

/-! ### Parts -/

/-- The parts that the text is over before, one after the other. -/
theorem ends_seq : ∀ {es : List Pattern}, (∀ e ∈ es, Follows P e) →
    Expr.ClearSeq CharacterSet.holds es [] →
    ∃ ok, AndEnds P (matchers es : List (Match κ σ τ)) ok ∧
      (ok = true ↔ [] ∈ Expr.seqLang CharacterSet.holds es)
  | [], _, _ => ⟨true, andEnds_nil, iff_of_true rfl rfl⟩
  | e :: es, h, ⟨hclear, hclears⟩ => by
    obtain ⟨ok, hends, htells⟩ := (h e List.mem_cons_self).ends hclear
    have hnil : [] ∈ Expr.seqLang CharacterSet.holds (e :: es) ↔
        [] ∈ e.lang CharacterSet.holds ∧ [] ∈ Expr.seqLang CharacterSet.holds es := by
      rw [Expr.seqLang, Language.mem_mul]
      simp
    cases ok with
    | true =>
      obtain ⟨ok', hands, hok'⟩ := ends_seq (fun f hf => h f (List.mem_cons_of_mem _ hf))
        (hclears [] [] (done_of_stop htells))
      exact ⟨true && ok', hends.andEnds fun _ =>
        hands, by rw [Bool.true_and, hok', hnil, ← htells.2]; simp⟩
    | false =>
      refine ⟨false && true, hends.andEnds nofun, ?_⟩
      rw [hnil, ← htells.2]
      simp

theorem follows_seq : ∀ {es : List Pattern}, (∀ e ∈ es, Follows P e) →
    Expr.OrderlyAll CharacterSet.holds es →
    Expr.DeterministicSeq CharacterSet.holds es → es ≠ [] →
      ∀ w, Expr.ClearSeq CharacterSet.holds es w →
      ∃ out, (∀ before, Drives P (and (before ++ matchers es) before.length none : Match κ σ τ)
        w false out) ∧
        Tells (Expr.seqLang CharacterSet.holds es) w out
  | [], _, _, _, hne, _, _ => absurd rfl hne
  | e :: es, h, ⟨_, ho⟩, ⟨_, hapart, hd⟩, _, w, ⟨hclear, hclears⟩ => by
    have hes : ∀ e ∈ es, Follows P e := fun f hf => h f (List.mem_cons_of_mem _ hf)
    have hB := Expr.exists_seqLang es ho
    obtain ⟨s, out, hdrive, htells, -⟩ := h e List.mem_cons_self true w hclear
    have hresult := result_matcher (κ := κ) (σ := σ) (τ := τ) e
    have hmatchers : (matchers es : List (Match κ σ τ)) = [] ↔ es = [] := by
      cases es <;> simp [matchers]
    cases out with
    | done late rest =>
      by_cases hlast : es = []
      · refine ⟨.done late rest, fun before => hdrive.and_some hresult (fun late' rest' heq => ?_)
          nofun nofun, ?_⟩
        · rw [if_pos (hmatchers.mpr hlast)]
          exact heq
        · rw [hlast, Expr.seqLang, Expr.seqLang, mul_one]
          exact htells
      · obtain ⟨u, hdone, -⟩ := htells
        obtain ⟨out', hdrives, htells'⟩ := follows_seq hes ho hd hlast rest (hclears u rest hdone)
        refine ⟨out', fun before => hdrive.and_some hresult (fun late' rest' heq => ?_) nofun nofun,
          hdone.tells hapart htells'⟩
        obtain ⟨-, rfl⟩ := Out.done.inj heq
        rw [if_neg (mt hmatchers.mp hlast)]
        intro m'
        simpa using hdrives (before ++ [m'])
    | fail rest =>
      exact ⟨.fail rest, fun before => hdrive.and_some hresult nofun (fun rest' heq => heq) nofun,
        tells_mul_fail htells hapart hB⟩
    | stop ok =>
      cases ok with
      | true =>
        obtain ⟨ok', hands, hok'⟩ := ends_seq hes (hclears w [] (done_of_stop htells))
        refine ⟨.stop (true && ok'), fun before => hdrive.and_some hresult nofun nofun fun ok heq =>
          ?_,
          tells_mul_stop htells hapart hB fun _ => hok'⟩
        rw [← Out.stop.inj heq]
        exact ⟨ok', rfl, fun _ => hands⟩
      | false =>
        refine ⟨.stop (false && true), fun before =>
          hdrive.and_some hresult nofun nofun fun ok heq => ?_,
          tells_mul_stop htells hapart hB nofun⟩
        rw [← Out.stop.inj heq]
        exact ⟨true, rfl, nofun⟩

section

variable {es : List Pattern} {c : Character} {w : List Character}

theorem failed_of_refused {c : BString} {ms ms' : List (Match κ σ τ)}
    (h : List.Forall₂ (Refused P c) ms ms') :
    ∀ k ∈ ms', Failed P k := by
  induction h with
  | nil => nofun
  | cons hm _ ih => exact List.forall_mem_cons.mpr ⟨hm.1, ih⟩

/-- Alternatives without a word that starts with the character fail with it. -/
theorem refused_matchers :
    ∀ {es : List Pattern}, (∀ e ∈ es, Follows P e ∧ e.Clear CharacterSet.holds false (c :: w)) →
    (∀ e ∈ es, [] ∉ e.lang CharacterSet.holds ∧ ∀ v, c :: v ∉ e.lang CharacterSet.holds) →
      ∃ ms : List (Match κ σ τ), List.Forall₂ (Refused P c.1) (matchers es) ms
  | [], _, _ => ⟨[], .nil⟩
  | e :: es, h, hno => by
    obtain ⟨⟨hfollows, hclear⟩, hes⟩ := List.forall_mem_cons.mp h
    obtain ⟨⟨hnil, hc⟩, hnos⟩ := List.forall_mem_cons.mp hno
    obtain ⟨out, hdrive, htells⟩ := hfollows.drives hclear
    obtain ⟨rfl, -⟩ := (htells.unbegun hc).resolve_right fun ⟨_, _, hmem⟩ => hnil hmem
    obtain ⟨m, hpush, hfailed⟩ := hdrive.refuses
    obtain ⟨ms, hms⟩ := refused_matchers hes hnos
    exact ⟨m :: ms, .cons ⟨hfailed, Or.inr ⟨result_matcher e, hpush⟩⟩ hms⟩

/-- The alternatives that the text is over before. -/
theorem ends_alt :
    ∀ {es : List Pattern}, (∀ e ∈ es, Follows P e ∧ e.Clear CharacterSet.holds false []) →
    ∃ oks, List.Forall₂ (Ends P) (matchers es : List (Match κ σ τ)) oks ∧
      (oks.any id = true ↔ ∃ e ∈ es, [] ∈ e.lang CharacterSet.holds)
  | [], _ => ⟨[], .nil, by simp⟩
  | e :: es, h => by
    obtain ⟨⟨hfollows, hclear⟩, hes⟩ := List.forall_mem_cons.mp h
    obtain ⟨ok, hends, htells⟩ := hfollows.ends hclear
    obtain ⟨oks, hoks, hany⟩ := ends_alt hes
    exact ⟨ok :: oks, .cons hends hoks, by simp [List.any_cons, ← htells.2, ← hany]⟩

/-- The alternative that the character starts goes on, and the others have failed, or
it has been found before them. -/
theorem follows_started {before after : List Pattern} {e : Pattern}
    (h : ∀ f ∈ before ++ e :: after, Follows P f ∧ f.Clear CharacterSet.holds false (c :: w))
    (hpair : (before ++ e :: after).Pairwise fun e f => Unlike (e.lang CharacterSet.holds)
      (f.lang CharacterSet.holds))
    (hc : ∃ v, c :: v ∈ e.lang CharacterSet.holds)
    (hbefore : ∀ f ∈ before, [] ∉ f.lang CharacterSet.holds)
    (hafter : ∀ f ∈ after, [] ∈ f.lang CharacterSet.holds →
      ¬GoesOn (e.lang CharacterSet.holds) [c]) :
    ∃ out, Drives P (or (matchers (before ++ e :: after)) none none : Match κ σ τ) (c :: w)
      false out ∧
      Tells (Expr.altLang CharacterSet.holds (before ++ e :: after)) (c :: w) out := by
  obtain ⟨v, hv⟩ := hc
  obtain ⟨-, hpairs, hpairb⟩ := List.pairwise_append.mp hpair
  -- the words of the others start with other characters
  have hothers : ∀ f ∈ before ++ after, Unlike (e.lang CharacterSet.holds)
    (f.lang CharacterSet.holds) := by
    intro f hf
    rcases List.mem_append.mp hf with hf | hf
    · exact fun d x y hx hy => hpairb f hf e List.mem_cons_self d y x hy hx
    · exact (List.pairwise_cons.mp hpairs).1 f hf
  have hno : ∀ f ∈ before ++ after, ∀ x, c :: x ∉ f.lang CharacterSet.holds :=
    fun f hf x hx => hothers f hf c v x hv hx
  obtain ⟨hfollows, hclear⟩ := h e (List.mem_append_right _ List.mem_cons_self)
  obtain ⟨out, hdrive, htells⟩ := hfollows.drives hclear
  obtain ⟨ms, hms⟩ := refused_matchers (fun f hf => h f (List.mem_append_left _ hf)) fun f hf =>
    ⟨hbefore f hf, hno f (List.mem_append_left _ hf)⟩
  refine ⟨out, ?_, htells.add ⟨v, hv⟩ (B := Expr.altLang CharacterSet.holds (before ++ after))
    (fun d x y hx hy => ?_) fun x => ?_⟩
  · rw [matchers_eq, List.map_append, List.map_cons, ← matchers_eq, ← matchers_eq]
    by_cases hempty : ∃ f ∈ after, [] ∈ f.lang CharacterSet.holds
    · obtain ⟨f, hf, hnil⟩ := hempty
      obtain rfl := htells.single ⟨v, hv⟩ (hafter f hf hnil)
      obtain ⟨m', hpush, hr⟩ := hdrive.finds
      exact .done (pushes_or_found hms hpush (result_matcher e) hr) rfl
    · obtain ⟨ms', hms'⟩ :=
        refused_matchers (fun f hf => h f (List.mem_append_right _ (List.mem_cons_of_mem _ hf)))
        fun f hf => ⟨fun hnil => hempty ⟨f, hf, hnil⟩, hno f (List.mem_append_right _ hf)⟩
      exact hdrive.or_cons (result_matcher e) hms hms' fun m' hm' hw =>
        drives_or_failed (failed_of_refused hms) (failed_of_refused hms') w hw hm'
  · obtain ⟨f, hf, hy⟩ := Expr.mem_altLang.mp hy
    exact hothers f hf d x y hx hy
  · rw [Expr.mem_altLang, Expr.mem_altLang]
    simp only [List.mem_append, List.mem_cons]
    grind

/-- Where no alternative is started the first that may be empty is taken. -/
theorem follows_passed {before after : List Pattern} {f : Pattern}
    (h : ∀ e ∈ before ++ f :: after, Follows P e ∧ e.Clear CharacterSet.holds false (c :: w))
    (hc : ∀ e ∈ before ++ f :: after, ∀ v, c :: v ∉ e.lang CharacterSet.holds)
    (hnil : [] ∈ f.lang CharacterSet.holds)
    (hbefore : ∀ e ∈ before, [] ∉ e.lang CharacterSet.holds) :
    Drives P (or (matchers (before ++ f :: after)) none none : Match κ σ τ) (c :: w) false
      (.done true (c :: w)) ∧
      Tells (Expr.altLang CharacterSet.holds (before ++ f :: after)) (c :: w)
        (.done true (c :: w)) := by
  have hf : f ∈ before ++ f :: after := List.mem_append_right _ List.mem_cons_self
  obtain ⟨ms, hms⟩ := refused_matchers (fun e he => h e (List.mem_append_left _ he)) fun e he =>
    ⟨hbefore e he, hc e (List.mem_append_left _ he)⟩
  obtain ⟨out, hdrive, htells⟩ := (h f hf).1.drives (h f hf).2
  obtain ⟨late, rfl, -⟩ := (htells.unbegun (hc f hf)).resolve_left fun hfail => hfail.2 hnil
  obtain ⟨m', hpush, hr, rfl⟩ := hdrive.passes
  constructor
  · rw [matchers_eq, List.map_append, List.map_cons, ← matchers_eq, ← matchers_eq]
    exact .late (pushes_or_found hms hpush (result_matcher f) hr) rfl
  · obtain ⟨u, hdone, hlate⟩ := htells
    obtain rfl : u = [] := List.self_eq_append_left.mp hdone.eq
    refine tells_passed (fun v hv => ?_) (Expr.mem_altLang.mpr ⟨f, hf, hnil⟩)
      ((hlate rfl).2.mono fun v hv => Expr.mem_altLang.mpr ⟨f, hf, hv⟩)
    obtain ⟨e, he, hv⟩ := Expr.mem_altLang.mp hv
    exact hc e he v hv

theorem follows_alt (h : ∀ e ∈ es, Follows P e) (hne : es ≠ [])
    (ho : Expr.OrderlyAll CharacterSet.holds es)
    (hpair : es.Pairwise fun e f => Unlike (e.lang CharacterSet.holds)
      (f.lang CharacterSet.holds)) :
    Follows P (.alt es) := by
  rintro again w ⟨hclears, hpreferred⟩
  have hall : ∀ e ∈ es, Follows P e ∧ e.Clear CharacterSet.holds false w := fun e he =>
    ⟨h e he, Expr.clear_of_mem hclears e he⟩
  cases w with
  | nil =>
    obtain ⟨oks, hoks, hany⟩ := ends_alt hall
    obtain ⟨e, he⟩ := List.exists_mem_of_ne_nil es hne
    obtain ⟨ok, -, htells⟩ := (hall e he).1.ends (hall e he).2
    exact ⟨false, .stop (oks.any id), .stop (ends_or hoks),
      ⟨htells.1.mono fun v hv => Expr.mem_altLang.mpr ⟨e, he, hv⟩,
        hany.trans Expr.mem_altLang.symm⟩, fun _ => rfl⟩
  | cons c w =>
    by_cases hstart : ∃ e ∈ es, ∃ v, c :: v ∈ e.lang CharacterSet.holds
    · obtain ⟨e, he, hc⟩ := hstart
      obtain ⟨before, after, rfl⟩ := List.append_of_mem he
      obtain ⟨hbefore, hafter⟩ := hpreferred before e after c w rfl rfl hc
      obtain ⟨out, hdrive, htells⟩ := follows_started hall hpair hc hbefore hafter
      exact ⟨false, out, hdrive, htells, fun _ => rfl⟩
    · have hc : ∀ e ∈ es, ∀ v, c :: v ∉ e.lang CharacterSet.holds :=
        fun e he v hv => hstart ⟨e, he, v, hv⟩
      classical
      cases hfind : es.find? fun e => decide ([] ∈ e.lang CharacterSet.holds) with
      | some f =>
        obtain ⟨hnil, before, after, rfl, hbefore⟩ := List.find?_eq_some_iff_append.mp hfind
        obtain ⟨hdrive, htells⟩ := follows_passed hall hc (of_decide_eq_true hnil) fun e he => by
          simpa using hbefore e he
        exact ⟨false, _, hdrive, htells, fun _ => rfl⟩
      | none =>
        have hnil : ∀ e ∈ es, [] ∉ e.lang CharacterSet.holds := fun e he => by
          simpa using List.find?_eq_none.mp hfind e he
        obtain ⟨ms, hms⟩ := refused_matchers hall fun e he => ⟨hnil e he, hc e he⟩
        refine ⟨false, .fail (c :: w), .fail (pushes_or_fails hms) ⟨rfl, 1, _, rfl, rfl⟩,
          tells_refused (fun v hv => ?_) (fun hmem => ?_) (Expr.exists_altLang es hne ho),
            fun _ => rfl⟩
        · obtain ⟨e, he, hv⟩ := Expr.mem_altLang.mp hv
          exact hc e he v hv
        · obtain ⟨e, he, hmem⟩ := Expr.mem_altLang.mp hmem
          exact hnil e he hmem

end

mutual

/-- **The matcher of a pattern comes to what is right about the text.** -/
theorem follows_matcher : ∀ e : Pattern, e.Orderly CharacterSet.holds →
    e.Deterministic CharacterSet.holds → Follows P e
  | .one set, h, _ => fun _ w _ => by
    obtain ⟨out, hdrive, htells⟩ := drives_one h w
    exact ⟨false, out, hdrive, htells, fun _ => rfl⟩
  | .word letters, h, _ => fun _ w _ => by
    obtain ⟨out, hdrive, htells⟩ := drives_word letters w h
    exact ⟨false, out, hdrive, htells, fun _ => rfl⟩
  | .seq es, ⟨hne, h⟩, hd => fun _ w hclear => by
    obtain ⟨out, hdrive, htells⟩ := follows_seq (follows_parts es h hd) h hd hne w hclear
    exact ⟨false, out, hdrive [], htells, fun _ => rfl⟩
  | .alt es, ⟨hne, h⟩, hd => follows_alt (follows_alternatives es h hd.1) hne h hd.2
  | .opt e, h, hd => follows_opt (follows_matcher e h hd)
  | .rep e _ _, ⟨h, hbounds⟩, hd =>
    follows_rep (follows_matcher e h hd.1) (Expr.exists_lang e h) hd.2 hbounds

theorem follows_parts : ∀ es : List Pattern, Expr.OrderlyAll CharacterSet.holds es →
    Expr.DeterministicSeq CharacterSet.holds es → ∀ e ∈ es, Follows P e
  | e :: es, ⟨he, hes⟩, ⟨hd, _, hds⟩, f, hf => by
    rcases List.mem_cons.mp hf with heq | hf
    · rw [heq]
      exact follows_matcher e he hd
    · exact follows_parts es hes hds f hf

theorem follows_alternatives : ∀ es : List Pattern, Expr.OrderlyAll CharacterSet.holds es →
    Expr.DeterministicAll CharacterSet.holds es → ∀ e ∈ es, Follows P e
  | e :: es, ⟨he, hes⟩, ⟨hd, hds⟩, f, hf => by
    rcases List.mem_cons.mp hf with heq | hf
    · rw [heq]
      exact follows_matcher e he hd
    · exact follows_alternatives es hes hds f hf

end

end Pattern

/-! ### The whole text -/

namespace Parser

variable {P : Program κ σ τ φ}

/-- The characters that the loop of `Parser::read` leaves. -/
def left (P : Program κ σ τ φ) (fuel : ℕ) (m : Match κ σ τ) : List BString → Run φ (List BString)
  | [] => return []
  | c :: cs => do
    let (m, matched, _) ← m.matches_ P fuel c
    if m.result ≠ none || !matched then return if matched then cs else c :: cs else left P fuel m cs

/-- `Parser::read` and `Parser::eof`: what is left of the text, and the result. -/
def readText (P : Program κ σ τ φ) (fuel : ℕ) (m : Match κ σ τ) (s : BString) :
    Run φ (List BString × Option Bool) := do
  let rest ← left P fuel m (characters s)
  let p ← read P fuel (ofMatch m) s
  let p ← eof P fuel p
  return (rest, p.result)

/-- The text has been read to its end, with success. -/
def Accepted (r : List BString × Option Bool) : Prop := r.1 = [] ∧ r.2 = some true

section

variable {fuel : ℕ} {m m' : Match κ σ τ} {c : BString} {b : Bool} {calls : List (τ × Match κ σ τ)}

theorem left_taken (h : m.matches_ P fuel c = .ok (m', true, calls)) (hr : m'.result = none)
    (cs : List BString) :
    left P fuel m (c :: cs) = left P fuel m' cs := by
  rw [left, h, Run.ok_bind]
  simp [hr]

theorem left_result (h : m.matches_ P fuel c = .ok (m', b, calls)) (hr : m'.result ≠ none)
    (cs : List BString) :
    left P fuel m (c :: cs) = .ok (if b then cs else c :: cs) := by
  rw [left, h, Run.ok_bind]
  simp [hr]

end

/-- Where the loop of `Parser::read` ends with a text. -/
theorem push_drives {m : Match κ σ τ} {w : List Character} {s : Bool} {out : Out Character}
    (h : m.Drives P w s out)
    (hs : s = false) (hm : m.result = none) : ∃ n m' rest,
      (∀ fuel, n ≤ fuel → push P fuel m (w.map Subtype.val) = .ok m' ∧
        left P fuel m (w.map Subtype.val) = .ok rest) ∧
        ((m'.result = none ∧ rest = [] ∧ ∃ ok, out = .stop ok ∧ m'.Ends P ok) ∨
          ∃ r, m'.result = some r ∧ (out.accepts = true ↔ rest = [] ∧ r = true)) := by
  induction h with
  | @stop m ok h => exact ⟨0, m, [], fun _ _ => ⟨rfl, rfl⟩, Or.inl ⟨hm, rfl, ok, rfl, h⟩⟩
  | @taken m m' c w s out h hr _ ih =>
    obtain ⟨n, hn⟩ := h.more
    obtain ⟨k, m'', rest, hrun, hends⟩ := ih hs hr
    refine ⟨max n k, m'', rest, fun fuel hf => ?_, hends⟩
    have hstep := hn fuel (le_of_max_le_left hf)
    rw [List.map_cons, push_taken hstep hr, left_taken hstep hr]
    exact hrun fuel (le_of_max_le_right hf)
  | @done m m' c w h hr =>
    obtain ⟨n, hn⟩ := h.more
    have hne : m'.result ≠ none := by rw [hr]; exact Option.some_ne_none true
    refine ⟨n, m', w.map Subtype.val, fun fuel hf =>
      ⟨push_result (hn fuel hf) hne _, left_result (hn fuel hf) hne _⟩,
      Or.inr ⟨true, hr, ?_⟩⟩
    rw [Out.accepts, List.isEmpty_iff, List.map_eq_nil_iff]
    exact (and_iff_left rfl).symm
  | @late m m' c w h hr =>
    obtain ⟨n, hn⟩ := h.more
    have hne : m'.result ≠ none := by rw [hr]; exact Option.some_ne_none true
    exact ⟨n, m', _, fun fuel hf =>
      ⟨push_result (hn fuel hf) hne _, left_result (hn fuel hf) hne _⟩,
      Or.inr ⟨true, hr, by simp [Out.accepts]⟩⟩
  | @fail m m' c w h hm' =>
    obtain ⟨n, hn⟩ := h.more
    have hne : m'.result ≠ none := by rw [hm'.result]; exact Option.some_ne_none false
    exact ⟨n, m', _, fun fuel hf =>
      ⟨push_result (hn fuel hf) hne _, left_result (hn fuel hf) hne _⟩,
      Or.inr ⟨false, hm'.result, by simp [Out.accepts]⟩⟩
  | stall => exact absurd hs nofun

theorem readText_text {fuel : ℕ} {m m' : Match κ σ τ} {w : List Character} {rest : List BString}
    (hpush : push P fuel m (w.map Subtype.val) = .ok m')
    (hleft : left P fuel m (w.map Subtype.val) = .ok rest) :
    readText P fuel m (Pattern.bytes w) = do
      let p ← eof P fuel ⟨m', m'.result⟩
      return (rest, p.result) := by
  have hchars : characters (Pattern.bytes w) = w.map Subtype.val := characters_text fun c hc => by
    obtain ⟨c, -, rfl⟩ := List.mem_map.mp hc
    exact c.2
  have hread : read P fuel (ofMatch m) (Pattern.bytes w) = .ok ⟨m', m'.result⟩ := by
    rw [read, hchars, ofMatch, hpush, Run.ok_bind]
    cases m'.result <;> rfl
  rw [readText, hchars, hleft, hread]
  rfl

/-- The end asks a matcher without a result. -/
theorem eof_ends {m : Match κ σ τ} {ok : Bool} (h : m.Ends P ok) (hm : m.result = none) :
    ∃ n p, p.result = some ok ∧ ∀ fuel, n ≤ fuel → eof P fuel ⟨m, m.result⟩ = .ok p := by
  obtain ⟨n, m', hr, hrun⟩ := h.more
  refine ⟨n, ⟨m', some ok⟩, rfl, fun fuel hf => ?_⟩
  rw [eof, hm, if_neg nofun, hrun fuel hf, Run.ok_bind]
  simp [hr]

theorem eof_result {fuel : ℕ} {m : Match κ σ τ} {r : Bool} (hm : m.result = some r) :
    eof P fuel ⟨m, m.result⟩ = .ok ⟨m, some r⟩ := by
  rw [eof, hm]
  rfl

/-- What the parser says of a text, as the matcher has been driven. -/
theorem readText_drives {m : Match κ σ τ} {w : List Character} {out : Out Character}
    (h : m.Drives P w false out)
    (hm : m.result = none) :
    ∃ r, (∃ n, ∀ fuel, n ≤ fuel → readText P fuel m (Pattern.bytes w) = .ok r) ∧
      (Accepted r ↔ out.accepts = true) := by
  obtain ⟨n, m', rest, hrun, hends⟩ := push_drives h rfl hm
  have htext := fun fuel hf => readText_text (hrun fuel hf).1 (hrun fuel hf).2
  rcases hends with ⟨hnone, rfl, ok, rfl, hok⟩ | ⟨r, hr, haccepts⟩
  · -- the end is asked where the matcher has no result
    obtain ⟨k, p, hp, heof⟩ := eof_ends hok hnone
    refine ⟨([], some ok), ⟨max n k, fun fuel hf => ?_⟩, by simp [Accepted, Out.accepts]⟩
    rw [htext fuel (le_of_max_le_left hf), heof fuel (le_of_max_le_right hf), Run.ok_bind, hp]
    rfl
  · refine ⟨(rest, some r), ⟨n, fun fuel hf => ?_⟩, by simp [Accepted, haccepts]⟩
    rw [htext fuel hf, eof_result hr]
    rfl

def letterA : Character := ⟨[97], isChar_ascii (by decide)⟩

def letterB : Character := ⟨[98], isChar_ascii (by decide)⟩

def letterC : Character := ⟨[99], isChar_ascii (by decide)⟩

def letterSet (c : Character) : Pattern := .one (.character (some c.1))

/-- An optional `ab`, and then `c` -/
def optionalLetters : Pattern :=
  .seq [.opt (.seq [letterSet letterA, letterSet letterB]), letterSet letterC]

theorem orderly_optionalLetters : optionalLetters.Orderly CharacterSet.holds := by
  have hletter : ∀ c, (letterSet c).Orderly CharacterSet.holds :=
    fun c => ⟨c, by simp [CharacterSet.holds]⟩
  exact ⟨nofun, ⟨nofun, hletter letterA, hletter letterB, trivial⟩, hletter letterC, trivial⟩

theorem mem_letterSet {a : Character} {u : List Character} :
    u ∈ (letterSet a).lang CharacterSet.holds ↔ u = [a] := by
  have hholds : ∀ c : Character, CharacterSet.holds (.character (some a.1)) c ↔ c = a := by
    intro c
    rw [Subtype.ext_iff]
    simp only [CharacterSet.holds, Option.all_some, beq_iff_eq]
    exact eq_comm
  constructor
  · rintro ⟨c, hc, rfl⟩
    rw [(hholds c).mp hc]
  · rintro rfl
    exact ⟨a, (hholds _).mpr rfl, rfl⟩

theorem apart_letterSet (a : Character) (B : Language Character) :
    Apart ((letterSet a).lang CharacterSet.holds) B := by
  intro u c v x hu huv _
  rw [mem_letterSet] at hu huv
  rw [hu] at huv
  exact absurd huv nofun

theorem mem_pair {u : List Character} :
    u ∈ (Expr.seq [letterSet letterA, letterSet letterB]).lang CharacterSet.holds ↔
    u = [letterA, letterB] := by
  constructor
  · intro hu
    obtain ⟨a, ha, v, hv, rfl⟩ := Language.mem_mul.mp hu
    obtain ⟨b, hb, rest, hrest, rfl⟩ := Language.mem_mul.mp hv
    have hnil : rest = [] := hrest
    rw [mem_letterSet.mp ha, mem_letterSet.mp hb, hnil]
    rfl
  · rintro rfl
    exact Language.append_mem_mul (mem_letterSet.mpr rfl)
      (Language.append_mem_mul (mem_letterSet.mpr rfl) rfl)

/-- The words are `c` and `abc`. -/
theorem mem_optionalLetters {u : List Character} (h : u ∈ optionalLetters.lang CharacterSet.holds) :
    u = [letterC] ∨ u = [letterA, letterB, letterC] := by
  obtain ⟨a, ha, v, hv, rfl⟩ := Language.mem_mul.mp h
  obtain ⟨b, hb, rest, hrest, rfl⟩ := Language.mem_mul.mp hv
  obtain rfl : rest = [] := hrest
  rw [mem_letterSet.mp hb]
  rcases mem_one_add.mp ha with rfl | ha
  · exact Or.inl rfl
  · rw [mem_pair.mp ha]
    exact Or.inr rfl

theorem deterministic_optionalLetters : optionalLetters.Deterministic CharacterSet.holds := by
  refine ⟨⟨trivial, apart_letterSet letterA _, trivial, apart_letterSet letterB _, trivial⟩, ?_,
    trivial, apart_letterSet letterC _, trivial⟩
  intro u d v x hu huv hx
  obtain ⟨b, hb, b', -, hd⟩ := Language.mem_mul.mp hx
  rw [mem_letterSet.mp hb] at hd
  obtain rfl : letterC = d := (List.cons.inj hd).1
  rcases mem_one_add.mp huv with h0 | huv
  · exact absurd h0 (by simp)
  · have huv := mem_pair.mp huv
    rcases mem_one_add.mp hu with rfl | hu
    · exact absurd (List.cons.inj huv).1 (by decide)
    · rw [mem_pair.mp hu] at huv
      exact absurd huv (by simp)

theorem clear_optionalLetters :
    optionalLetters.Clear CharacterSet.holds false [letterA, letterB, letterC] := by
  have hdone : Done ((Expr.seq [letterSet letterA, letterSet letterB]).lang CharacterSet.holds)
    [letterA, letterB, letterC]
      [letterA, letterB] [letterC] := by
    refine ⟨rfl, mem_pair.mpr rfl, fun c x _ v hmem => ?_⟩
    exact absurd (mem_pair.mp hmem) (by simp)
  exact ⟨⟨⟨trivial, fun _ _ _ => ⟨trivial, fun _ _ _ => trivial⟩⟩, hdone.not_unfinished⟩,
    fun _ _ _ => ⟨trivial, fun _ _ _ => trivial⟩⟩

/-- An alternative that may be empty is taken at once, and `b` is left. -/
example : readText (noGrammar : Program Unit Unit Unit Unit) 6
    (Pattern.matcher (.alt [.opt (letterSet letterA), letterSet letterB]))
    (Pattern.bytes [letterB]) = .ok ([[98]], some true) := by
  rw [readText_text (w := [letterB])]
  case hpush => rfl
  case hleft => rfl
  rfl

/-- The second `a` ends the first item of one or more `ab` or `a`, and is left. -/
example : readText (noGrammar : Program Unit Unit Unit Unit) 6
    (Pattern.matcher (.rep (.seq [letterSet letterA, .opt (letterSet letterB)]) 1 0))
    (Pattern.bytes [letterA, letterA]) =
      .ok ([[97]], some true) := by
  rw [readText_text (w := [letterA, letterA])]
  case hpush => rfl
  case hleft => rfl
  rfl

end Parser

end BeeFish
