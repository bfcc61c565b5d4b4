/-
# Matchers and the end of the text

What a matcher comes to with a whole text: it has a result before the text
ends, or `eof` gives it one. Either way there is a result, a rest of the text,
none at the end of it, and the calls. A sequence, an option, a capture and a
repetition come to what their parts come to, the same at the end of the text
and before it.

Key definitions: `Match.Finishes`, `Match.Comes`, `Match.Sequence`, `Match.Class`, `Match.common`.
-/
import BeeFish.Reads

namespace BeeFish

variable {κ σ τ φ : Type}

namespace Match

variable (P : Program κ σ τ φ)

/-- What `eof` makes of the matcher, with enough fuel. -/
def Finishes (m m' : Match κ σ τ) (calls : List (τ × Match κ σ τ)) : Prop :=
  ∃ n, ∀ fuel, n ≤ fuel → eof P fuel m = .ok (m', calls)

/-- What the matcher comes to with a text and its end: the result, the matcher
and the rest of the text. -/
inductive Comes (m : Match κ σ τ) (w : List BString) (s : Bool) :
    Bool → Match κ σ τ → List BString → List (τ × Match κ σ τ) → Prop
  | done {m' : Match κ σ τ} {rest : List BString} {calls : List (τ × Match κ σ τ)}
    (h : Reads P m w s (.done m' rest) calls) :
      Comes m w s true m' rest calls
  | failed {m' : Match κ σ τ} {rest : List BString} {calls : List (τ × Match κ σ τ)}
      (h : Reads P m w s (.failed m' rest) calls) :
      Comes m w s false m' rest calls
  | ended {k m' : Match κ σ τ} {r : Bool} {calls calls' : List (τ × Match κ σ τ)}
      (h : Reads P m w s (.ended k) calls)
      (he : Finishes P k m' calls') (hr : m'.result = some r) :
        Comes m w s r m' [] (calls ++ calls')

variable {P} {m m' k : Match κ σ τ} {c : BString} {w rest : List BString} {s b r : Bool}
    {calls calls' : List (τ × Match κ σ τ)}

theorem Finishes.of_succ (n : ℕ) (h : ∀ fuel, n ≤ fuel → eof P (fuel + 1) m = .ok (m', calls)) :
    Finishes P m m' calls := by
  refine ⟨n + 1, fun fuel hf => ?_⟩
  obtain ⟨j, rfl⟩ : ∃ j, fuel = j + 1 := ⟨fuel - 1, by omega⟩
  exact h j (Nat.le_of_succ_le_succ hf)

namespace Outcome

def match_ : Outcome κ σ τ → Match κ σ τ
  | done m _ => m
  | failed m _ => m
  | ended m => m

def result : Outcome κ σ τ → Option Bool
  | done _ _ => some true
  | failed _ _ => some false
  | ended _ => none

end Outcome

theorem Reads.result {out : Outcome κ σ τ} (h : Reads P m w s out calls) :
    out.match_.result = out.result := by
  induction h with
  | ended hr => exact hr
  | taken _ _ _ ih => exact ih
  | done _ hr => exact hr
  | late _ hr => exact hr
  | failed _ hr => exact hr
  | stalled _ _ _ ih => exact ih

theorem Reads.result_done (h : Reads P m w s (.done m' rest) calls) : m'.result = some true :=
  h.result

theorem Reads.result_failed (h : Reads P m w s (.failed m' rest) calls) : m'.result = some false :=
  h.result

theorem Reads.result_ended (h : Reads P m w s (.ended m') calls) : m'.result = none := h.result

theorem Comes.result (h : Comes P m w s r m' rest calls) : m'.result = some r := by
  cases h with
  | done h => exact h.result_done
  | failed h => exact h.result_failed
  | ended _ _ hr => exact hr

theorem Comes.rest_suffix (h : Comes P m w s r m' rest calls) : rest <:+ w := by
  cases h with
  | done h => exact h.rest_suffix
  | failed h => exact h.rest_suffix
  | ended _ _ _ => exact List.nil_suffix

/-- After one more character. -/
theorem Comes.taken (h : Comes P k w s r m' rest calls') (hturn : Turn P m c k true calls)
    (hk : k.result = none) :
    Comes P m (c :: w) s r m' rest (calls ++ calls') := by
  cases h with
  | done h => exact .done (.taken hturn hk h)
  | failed h => exact .failed (.taken hturn hk h)
  | ended h he hr =>
    rw [← List.append_assoc]
    exact .ended (.taken hturn hk h) he hr

/-- After a character that has been left. -/
theorem Comes.left (h : Comes P k (c :: w) s r m' rest calls') (hturn : Turn P m c k false calls)
    (hk : k.result = none) :
    Comes P m (c :: w) true r m' rest (calls ++ calls') := by
  cases h with
  | done h => exact .done (.stalled hturn hk h)
  | failed h => exact .failed (.stalled hturn hk h)
  | ended h he hr =>
    rw [← List.append_assoc]
    exact .ended (.stalled hturn hk h) he hr

/-- The text before a rest of it. -/
def textBefore (rest w : List BString) : BString := (w.take (w.length - rest.length)).flatten

theorem textBefore_append (rest w : List BString) : textBefore rest (w ++ rest) = w.flatten := by
  rw [textBefore, List.length_append, Nat.add_sub_cancel, List.take_left]

theorem textBefore_dropWhile (p : BString → Bool) (w : List BString) :
    textBefore (w.dropWhile p) w = (w.takeWhile p).flatten := by
  have h := textBefore_append (w.dropWhile p) (w.takeWhile p)
  rwa [List.takeWhile_append_dropWhile] at h

theorem textBefore_drop {n : ℕ} (h : n ≤ w.length) :
    textBefore (w.drop n) w = (w.take n).flatten := by
  rw [textBefore, List.length_drop]
  congr 2
  omega

theorem textBefore_cons (c : BString) (h : rest <:+ w) :
    textBefore rest (c :: w) = c ++ textBefore rest w := by
  rw [textBefore, List.length_cons, Nat.succ_sub h.length_le, List.take_succ_cons,
    List.flatten_cons, textBefore]

theorem flatten_textBefore (h : rest <:+ w) : w.flatten = textBefore rest w ++ rest.flatten := by
  obtain ⟨before, rfl⟩ := h
  rw [textBefore_append, List.flatten_append]

/-! ### The parts -/

theorem Finishes.optional (h : Finishes P m m' calls) :
    Finishes P (optional m none) (optional m' (some true)) calls := by
  obtain ⟨n, hn⟩ := h
  refine .of_succ n fun fuel hf => ?_
  rw [eof, hn fuel hf, Run.ok_bind]
  rfl

theorem Comes.optional (h : Comes P m w s r m' rest calls) :
    Comes P (optional m none) w s true (optional m' (some true)) rest calls := by
  cases h with
  | done h => exact .done h.optional
  | failed h => exact .done h.optional
  | ended h he _ => exact .ended h.optional he.optional rfl

theorem Finishes.capture {v : BString} (h : Finishes P m m' calls) (hm : m.result = none)
    (hr : m'.result = some r) :
    Finishes P (capture (fun _ => true) v m none) (capture (fun _ => true) v m' (some r))
      calls := by
  obtain ⟨n, hn⟩ := h
  refine .of_succ n fun fuel hf => ?_
  rw [eof, if_pos hm, hn fuel hf, Run.ok_bind]
  simp only [hr]
  cases r <;> rfl

/-- A capture takes the text before the rest. -/
theorem Comes.capture {v : BString} (h : Comes P m w s r m' rest calls) (hm : m.result = none) :
    Comes P (capture (fun _ => true) v m none) w s r
      (capture (fun _ => true) (v ++ textBefore rest w) m' (some r)) rest calls := by
  have hw := flatten_textBefore h.rest_suffix
  cases h with
  | done h =>
    have hread := h.capture hm (v := v) hw
    rw [Outcome.map, h.result_done] at hread
    exact .done hread
  | failed h =>
    have hread := h.capture hm (v := v) hw
    rw [Outcome.map, h.result_failed] at hread
    exact .failed hread
  | ended h he hr =>
    have hread := h.capture hm (v := v) hw
    rw [Outcome.map, h.result_ended] at hread
    exact .ended hread (he.capture h.result_ended hr) (by simp [Match.result])

theorem Finishes.invoke {f : τ} (h : Finishes P m m' calls) (hm : m.result = none)
    (hr : m'.result = some r) :
    Finishes P (invoke f m none) (invoke f m' (some r)) (calls ++ if r then [(f, m')] else []) := by
  obtain ⟨n, hn⟩ := h
  refine .of_succ n fun fuel hf => ?_
  rw [eof, if_pos hm, hn fuel hf, Run.ok_bind]
  simp only [hr]
  cases r <;> simp

theorem Comes.invoke {f : τ} (h : Comes P m w s r m' rest calls) (hm : m.result = none) :
    Comes P (invoke f m none) w s r (invoke f m' (some r)) rest
      (calls ++ if r then [(f, m')] else []) := by
  cases h with
  | done h =>
    have hread := h.invoke hm (f := f)
    simp only [Outcome.map, Outcome.calls, h.result_done, if_true] at hread
    exact .done hread
  | failed h =>
    have hread := h.invoke hm (f := f)
    simp only [Outcome.map, Outcome.calls, h.result_failed, Option.some.injEq, Bool.false_eq_true,
      if_false] at hread
    exact .failed hread
  | ended h he hr =>
    have hread := h.invoke hm (f := f)
    simp only [Outcome.map, Outcome.calls, h.result_ended, List.append_nil] at hread
    rw [List.append_assoc]
    exact .ended hread (he.invoke h.result_ended hr) (by simp [Match.result])

theorem Finishes.object {self self' : σ} (h : Finishes P m m' calls) (hm : m.result = none)
    (hr : m'.result = some r)
    (hself : calls.foldlM (fun self call => P.onsuccess call.1 call.2 self) self = .ok self')
    (hsuccess : P.success self' = true) :
    Finishes P (object self m none) (object self' m' (some r)) [] := by
  obtain ⟨n, hn⟩ := h
  refine .of_succ n fun fuel hf => ?_
  rw [eof, if_pos hm, hn fuel hf, Run.ok_bind]
  simp only [hself, hr]
  cases r <;> simp [setResult, hsuccess]

/-- An object hears all calls. -/
theorem Comes.object (hsuccess : ∀ self, P.success self = true) (h : Comes P m w s r m' rest calls)
    (hm : m.result = none) {self self' : σ}
    (hself : calls.foldlM (fun self call => P.onsuccess call.1 call.2 self) self = .ok self') :
    Comes P (object self m none) w s r (object self' m' (some r)) rest [] := by
  cases h with
  | done h =>
    have hread := h.object hsuccess hm hself
    rw [Outcome.map, h.result_done] at hread
    exact .done hread
  | failed h =>
    have hread := h.object hsuccess hm hself
    rw [Outcome.map, h.result_failed] at hread
    exact .failed hread
  | ended h he hr =>
    obtain ⟨self₁, h1, h2⟩ := foldlM_append_ok hself
    have hread := h.object hsuccess hm h1
    rw [Outcome.map, h.result_ended] at hread
    exact .ended hread (he.object h.result_ended hr h2 (hsuccess _)) (by simp [Match.result])

theorem Finishes.loadOnDemand {k : κ} (h : Finishes P m m' calls) (hm : m.result = none)
    (hr : m'.result = some r) :
    Finishes P (loadOnDemand k (some m) none) (loadOnDemand k (some m') (some r)) calls := by
  obtain ⟨n, hn⟩ := h
  refine .of_succ n fun fuel hf => ?_
  rw [eof]
  simp only [hm, if_true, hn fuel hf, Run.ok_bind, hr]
  cases r <;> rfl

/-- What is loaded on demand comes to what it comes to without that. -/
theorem Comes.loadOnDemand {k : κ} (h : Comes P (P.createItem k) (c :: w) s r m' rest calls) :
    ∃ m'', Comes P (Match.loadOnDemand k none none) (c :: w) s r m'' rest calls := by
  cases h with
  | done h => exact ⟨_, .done h.loadOnDemand⟩
  | failed h => exact ⟨_, .failed h.loadOnDemand⟩
  | ended h he hr => exact ⟨_, .ended h.loadOnDemand (he.loadOnDemand h.result_ended hr) rfl⟩

/-! ### Sequences -/

section

variable (P)

/-- What a sequence comes to from an input on: the result and the inputs. -/
def Sequence (before after : List (Match κ σ τ)) (w : List BString) (r : Bool)
    (inputs : List (Match κ σ τ)) (rest : List BString)
    (calls : List (τ × Match κ σ τ)) : Prop :=
  ∃ i, Comes P (and (before ++ after) before.length none) w false r
    (and inputs i (some r)) rest calls

end

section

variable {before after inputs : List (Match κ σ τ)} {rest' : List BString}

/-- A text without a character. -/
theorem Comes.of_nil (h : Comes P m [] s r m' rest calls) : Finishes P m m' calls := by
  have hstay : ∀ {out : Outcome κ σ τ} {calls : List (τ × Match κ σ τ)}, Reads P m [] s out calls →
    out = .ended m ∧ calls = [] := by
    intro out calls h
    cases h
    exact ⟨rfl, rfl⟩
  cases h with
  | done h => exact nomatch (hstay h).1
  | failed h => exact nomatch (hstay h).1
  | ended h he _ =>
    obtain ⟨heq, rfl⟩ := hstay h
    cases heq
    exact he

/-- The end of a sequence whose first input is still read. -/
theorem Finishes.and_cons {i : ℕ} (h : Finishes P m m' calls) (hr : m'.result = some true)
    (hnext : Finishes P (and (before ++ m' :: after) (before.length + 1) none)
      (and inputs i (some r)) calls') :
    Finishes P (and (before ++ m :: after) before.length none) (and inputs before.length (some r))
      (calls ++ calls') := by
  obtain ⟨n, hn⟩ := h
  obtain ⟨n', hn'⟩ := hnext
  refine .of_succ (max n n') fun fuel hf => ?_
  have hdrop : (before ++ m' :: after).drop (before.length + 1) = after := by
    rw [List.append_cons, List.drop_left' (by simp)]
  have htake : (before ++ m' :: after).take (before.length + 1) = before ++ [m'] := by
    rw [List.append_cons, List.take_left' (by simp)]
  have hrun := hn' (fuel + 1) (by omega)
  rw [eof, if_neg nofun, hdrop, htake] at hrun
  obtain ⟨⟨after', succeeded, calls''⟩, hafter, heq⟩ := Run.bind_eq_ok.mp hrun
  obtain ⟨hand, rfl⟩ := Prod.mk.inj (Run.ok_inj.mp heq)
  obtain ⟨rfl, -, hsome⟩ := Match.and.inj hand
  obtain rfl := Option.some.inj hsome
  rw [eof, if_neg nofun, List.drop_left, List.take_left, andEof, hn fuel (by omega), Run.ok_bind]
  simp only [hr, Option.some.injEq, Bool.true_eq_false, if_false, hafter, Run.ok_bind]
  simp only [List.append_assoc, List.singleton_append]
  rfl

/-- The end of a sequence whose last input, or one that fails, is still read. -/
theorem Finishes.and_last (h : Finishes P m m' calls) (hr : m'.result = some r)
    (hlast : r = true → after = []) :
    Finishes P (and (before ++ m :: after) before.length none)
      (and (before ++ m' :: after) before.length (some r)) calls := by
  obtain ⟨n, hn⟩ := h
  refine .of_succ n fun fuel hf => ?_
  rw [eof, if_neg nofun, List.drop_left, List.take_left, andEof, hn fuel hf, Run.ok_bind]
  cases r with
  | false =>
    simp only [hr, if_true]
    rfl
  | true =>
    obtain rfl := hlast rfl
    simp only [hr, Option.some.injEq, Bool.true_eq_false, if_false, andEof]
    conv_rhs => rw [← List.append_nil calls]
    rfl

theorem Sequence.cons (ha : after ≠ []) (h : Comes P m w s true m' rest calls)
    (hnext : Sequence P (before ++ [m']) after rest r inputs rest' calls') :
    Sequence P before (m :: after) w r inputs rest' (calls ++ calls') := by
  obtain ⟨i, hnext⟩ := hnext
  rw [List.append_assoc, List.length_append, List.length_singleton, List.singleton_append] at hnext
  have hsucc := h.result
  cases h with
  | done h =>
    refine ⟨i, ?_⟩
    cases hnext with
    | done h' => exact .done (h.and_next ha h')
    | failed h' => exact .failed (h.and_next ha h')
    | ended h' he hr =>
      rw [← List.append_assoc]
      exact .ended (h.and_next ha h') he hr
  | ended h he _ =>
    refine ⟨before.length, ?_⟩
    obtain rfl := List.suffix_nil.mp hnext.rest_suffix
    rw [List.append_assoc]
    exact .ended h.and_ended (he.and_cons hsucc hnext.of_nil) rfl

theorem Sequence.last (h : Comes P m w s r m' rest calls) :
    Sequence P before [m] w r (before ++ [m']) rest calls := by
  have hr := h.result
  cases h with
  | done h => exact ⟨_, .done h.and_last⟩
  | failed h => exact ⟨_, .failed h.and_failed⟩
  | ended h he _ => exact ⟨_, .ended h.and_ended (he.and_last hr fun _ => rfl) rfl⟩

theorem Sequence.failed (after : List (Match κ σ τ)) (h : Comes P m w s false m' rest calls) :
    Sequence P before (m :: after) w false (before ++ m' :: after) rest calls := by
  have hr := h.result
  cases h with
  | failed h => exact ⟨_, .failed h.and_failed⟩
  | ended h he _ => exact ⟨_, .ended h.and_ended (he.and_last hr nofun) rfl⟩

/-- The sequence as it starts. -/
theorem Sequence.comes (h : Sequence P [] after w r inputs rest calls) :
    ∃ i, Comes P (and after 0 none) w false r (and inputs i (some r)) rest calls := h

end

/-! ### Characters -/

theorem Turn.character (k c : BString) :
    Turn P (character (some k) none) c (character (some k) (some (k == c))) (k == c) [] :=
  .of_succ 0 fun fuel _ => by rw [matches_]; rfl

theorem Comes.character (k : BString) (w : List BString) :
    Comes P (character (some k) none) (k :: w) false true
      (character (some k) (some true)) w [] := by
  have hturn := Turn.character (P := P) k k
  rw [beq_self_eq_true] at hturn
  exact .done (.done hturn rfl)

theorem Comes.character_ne {k : BString} {w : List BString} (h : w.head? ≠ some k) :
    Comes P (Match.character (some k) none) w false false
      (Match.character (some k) (some false)) w [] := by
  cases w with
  | nil => exact .ended (.ended rfl) (.of_succ 0 fun _ _ => rfl) rfl
  | cons c w =>
    have hturn := Turn.character (P := P) k c
    rw [beq_false_of_ne fun he => h (congrArg some he.symm)] at hturn
    exact .failed (.failed hturn rfl)

/-! ### Classes of characters -/

variable (P) in
/-- A matcher of one character that satisfies `p`, and what `eof` makes of it. -/
structure Class (create : Match κ σ τ) (p : BString → Bool) (e : Bool) : Prop where
  result : create.result = none
  takes : ∀ c, p c = true → ∃ m', Turn P create c m' true [] ∧ m'.result = some true
  refuses : ∀ c, p c = false → ∃ m', Turn P create c m' false [] ∧ m'.result = some false
  finishes : ∃ m', Finishes P create m' [] ∧ m'.result = some e

theorem class_range (lo hi : BString) :
    Class P (range lo hi none) (fun c => decide (lo ≤ c) && decide (c ≤ hi)) false where
  result := rfl
  takes c hc := ⟨.range lo hi (some true), .of_succ 0 fun fuel _ => by rw [matches_, hc]; rfl, rfl⟩
  refuses c hc :=
    ⟨.range lo hi (some false), .of_succ 0 fun fuel _ => by rw [matches_, hc]; rfl, rfl⟩
  finishes := ⟨.range lo hi (some false), .of_succ 0 fun _ _ => rfl, rfl⟩

theorem orLoop_class (n : ℕ) (c : BString) :
    ∀ (cs : List BString) (before : List (Match κ σ τ)), ∃ ms i,
    orLoop (matches_ P (n + 1) · c) before false (cs.map fun k => .character (some k) none) =
      .ok (ms, decide (c ∈ cs), i, []) ∧
      i.isSome = decide (c ∈ cs)
  | [], before => ⟨before, none, rfl, rfl⟩
  | k :: cs, before => by
    have hrun : matches_ P (n + 1) (.character (some k) none) c =
      .ok (.character (some k) (some (k == c)), k == c, []) := by
      rw [matches_]
      rfl
    rw [List.map_cons]
    by_cases hk : k = c
    · subst hk
      rw [beq_self_eq_true] at hrun
      exact ⟨before ++ .character (some k) (some true) :: cs.map fun k => .character (some k) none,
        some before.length,
        by rw [orLoop_found before rfl hrun rfl]; simp, by simp⟩
    · rw [beq_false_of_ne hk] at hrun
      obtain ⟨ms, i, hloop, hi⟩ :=
        orLoop_class n c cs (before ++ [.character (some k) (some false)])
      have hmem : c ∈ k :: cs ↔ c ∈ cs := by simp [Ne.symm hk]
      refine ⟨ms, i, ?_, by simpa [hmem] using hi⟩
      rw [orLoop_more before rfl hrun (by simp [Match.result]), Bool.or_false, hloop]
      simp [hmem]

theorem orEof_class (n : ℕ) : ∀ (cs : List BString) (before : List (Match κ σ τ)), ∃ ms,
    orEof (eof P (n + 1)) before (cs.map fun k => .character (some k) none) = .ok (ms, none, [])
  | [], before => ⟨before, rfl⟩
  | k :: cs, before => by
    obtain ⟨ms, hms⟩ := orEof_class n cs (before ++ [.character (some k) (some false)])
    have heof :
        eof P (n + 1) (.character (some k) none) = .ok (.character (some k) (some false), []) := rfl
    refine ⟨ms, ?_⟩
    rw [List.map_cons, orEof, heof, Run.ok_bind]
    simp only [Match.result, Option.some.injEq, Bool.false_eq_true, if_false, hms]
    rfl

/-- One of some characters. -/
theorem class_or (cs : List BString) :
    Class P (.or (cs.map fun k => .character (some k) none) none none) (fun c => decide (c ∈ cs))
      false where
  result := rfl
  takes c hc := by
    obtain ⟨ms, i, hloop, hi⟩ := orLoop_class (P := P) 0 c cs []
    rw [hc] at hloop hi
    obtain ⟨i, rfl⟩ := Option.isSome_iff_exists.mp hi
    exact ⟨.or ms (some i) (some true), Turn.of_eq 2 (matches_or_found 1 hloop), rfl⟩
  refuses c hc := by
    obtain ⟨ms, i, hloop, hi⟩ := orLoop_class (P := P) 0 c cs []
    rw [hc] at hloop hi
    obtain rfl := Option.isSome_eq_false_iff.mp hi |> Option.isNone_iff_eq_none.mp
    exact ⟨.or ms none (some false), Turn.of_eq 2 (matches_or_none 1 hloop), rfl⟩
  finishes := by
    obtain ⟨ms, hms⟩ := orEof_class (P := P) 0 cs []
    have hmono : ∀ fuel, 2 ≤ fuel →
      eof P fuel (.or (cs.map fun k => .character (some k) none) none none) =
      .ok (.or ms none (some false), []) := by
      refine fun fuel hf => (eof_mono hf _).ok ?_
      rw [eof, if_neg nofun, hms]
      rfl
    exact ⟨_, ⟨2, hmono⟩, rfl⟩

theorem Turn.not (h : Turn P m c m' b calls) (hr : m'.result = some b) :
    Turn P (.not m none) c (.not m' (some (!b))) (!b) calls := by
  obtain ⟨n, hn⟩ := h
  refine .of_succ n fun fuel hf => ?_
  rw [matches_, hn fuel hf, Run.ok_bind]
  cases b <;> simp [hr]

theorem Finishes.not (h : Finishes P m m' calls) (hm : m.result = none) :
    Finishes P (.not m none) (.not m' (some (m'.result != some true))) calls := by
  obtain ⟨n, hn⟩ := h
  refine .of_succ n fun fuel hf => ?_
  have hnone : ¬ (Match.not m none).result ≠ none := by simp [Match.result, hm]
  rw [eof, if_neg hnone, hn fuel hf, Run.ok_bind]
  rfl

/-- The characters of no class. -/
theorem Class.not {p : BString → Bool} {e : Bool} (h : Class P m p e) :
    Class P (.not m none) (fun c => !p c) (!e) where
  result := by simp [Match.result, h.result]
  takes c hc := by
    obtain ⟨m', hturn, hr⟩ := h.refuses c (by simpa using hc)
    exact ⟨_, hturn.not hr, rfl⟩
  refuses c hc := by
    obtain ⟨m', hturn, hr⟩ := h.takes c (by simpa using hc)
    exact ⟨_, hturn.not hr, rfl⟩
  finishes := by
    obtain ⟨m', hend, hr⟩ := h.finishes
    refine ⟨_, hend.not h.result, ?_⟩
    rw [hr]
    cases e <;> rfl

/-- None of some characters. -/
theorem class_not (cs : List BString) :
    Class P (.not (.or (cs.map fun k => .character (some k) none) none none) none)
      (fun c => !decide (c ∈ cs)) true :=
  (class_or cs).not

/-! ### Repetitions -/

section

variable {create : Match κ σ τ} {start : Option (Match κ σ τ)} {lo n : ℕ}

/-- One more item. -/
theorem Turn.repeated_item (h : Turn P (start.getD create) c m' b calls)
    (hr : m'.result = some true) :
    Turn P (repeated create start lo 0 n none) c (repeated create (some create) lo 0 (n + 1) none)
      b calls := by
  obtain ⟨j, hj⟩ := h
  refine .of_succ j fun fuel hf => ?_
  rw [matches_, if_neg nofun, hj fuel hf, Run.ok_bind]
  simp [hr]

theorem Turn.repeated_failed (h : Turn P (start.getD create) c m' b calls)
    (hr : m'.result = some false) :
    Turn P (repeated create start lo 0 n none) c
      (repeated create (some m') lo 0 n (some (decide (lo ≤ n)))) false calls := by
  obtain ⟨j, hj⟩ := h
  refine .of_succ j fun fuel hf => ?_
  rw [matches_, if_neg nofun, hj fuel hf, Run.ok_bind]
  simp [hr]

theorem Turn.repeated_more (h : Turn P (start.getD create) c m' b calls) (hr : m'.result = none) :
    Turn P (repeated create start lo 0 n none) c (repeated create (some m') lo 0 n none)
      b calls := by
  obtain ⟨j, hj⟩ := h
  refine .of_succ j fun fuel hf => ?_
  rw [matches_, if_neg nofun, hj fuel hf, Run.ok_bind]
  simp [hr]

theorem Finishes.repeated_none :
    Finishes P (repeated create none lo 0 n none)
      (repeated create none lo 0 n (some (decide (lo ≤ n)))) [] :=
  .of_succ 0 fun fuel _ => by
    rw [eof]
    simp [setResult]

theorem Finishes.repeated_some (h : Finishes P m m' calls) (hm : m.result = none)
    (hr : m'.result = some r) :
    Finishes P (repeated create (some m) lo 0 n none)
      (repeated create (some m') lo 0 (if r then n + 1 else n)
        (some (decide (lo ≤ if r then n + 1 else n)))) calls := by
  obtain ⟨j, hj⟩ := h
  refine .of_succ j fun fuel hf => ?_
  rw [eof]
  simp only [hm, if_true, hj fuel hf, Run.ok_bind, hr]
  cases r <;> simp [setResult]

/-- The first item is set up with the first character. -/
theorem Comes.repeated_start
    (h : Comes P (Match.repeated create (some create) lo 0 n none) (c :: w) s r m' rest calls) :
    Comes P (Match.repeated create none lo 0 n none) (c :: w) s r m' rest calls := by
  have hlike : ∀ {k b calls}, Turn P (Match.repeated create (some create) lo 0 n none) c k b calls →
      Turn P (Match.repeated create none lo 0 n none) c k b ([] ++ calls) := by
    rintro k b calls ⟨j, hj⟩
    refine ⟨j + 1, fun fuel hf => ?_⟩
    obtain ⟨i, rfl⟩ : ∃ i, fuel = i + 1 := ⟨fuel - 1, by omega⟩
    exact hj (i + 1) (by omega)
  cases h with
  | done h => exact .done (h.of_first hlike)
  | failed h => exact .failed (h.of_first hlike)
  | ended h he hr => exact .ended (h.of_first hlike) he hr

/-- Some characters of a class, after others. -/
theorem Comes.repeated_some {p : BString → Bool} {e : Bool} (h : Class P create p e) :
    ∀ (w : List BString) (n : ℕ), lo ≤ n →
    ∃ m', Comes P (repeated create (some create) lo 0 n none) w false true m' (w.dropWhile p) []
  | [], n, hn => by
    obtain ⟨m', hm', hr⟩ := h.finishes
    have hend : Finishes P (Match.repeated create (some create) lo 0 n none) _ [] :=
      hm'.repeated_some h.result hr
    have hread : Reads P (Match.repeated create (some create) lo 0 n none) [] false (.ended _) [] :=
      .ended h.result
    have hlo : lo ≤ n + 1 := Nat.le_succ_of_le hn
    exact ⟨_, .ended hread hend (by cases e <;> simp [Match.result, hn, hlo])⟩
  | c :: w, n, hn => by
    cases hc : p c with
    | true =>
      obtain ⟨k, hturn, hr⟩ := h.takes c hc
      obtain ⟨m', hw⟩ := Comes.repeated_some h w (n + 1) (Nat.le_succ_of_le hn)
      rw [List.dropWhile_cons_of_pos hc]
      have hitem : Turn P (repeated create (some create) lo 0 n none) c
        (repeated create (some create) lo 0 (n + 1) none) true [] :=
        hturn.repeated_item hr
      exact ⟨m', hw.taken hitem h.result⟩
    | false =>
      obtain ⟨k, hturn, hr⟩ := h.refuses c hc
      rw [List.dropWhile_cons_of_neg (by simp [hc])]
      have hlast : Turn P (repeated create (some create) lo 0 n none) c
        (repeated create (some k) lo 0 n (some (decide (lo ≤ n)))) false [] :=
        hturn.repeated_failed hr
      exact ⟨_, .done (.late hlast (by simp [Match.result, hn]))⟩

/-- All characters of a class that a text starts with, where there need not be
one. -/
theorem Comes.repeated_any {p : BString → Bool} {e : Bool} (h : Class P create p e)
    (w : List BString) :
    ∃ m', Comes P (Match.repeated create none 0 0 0 none) w false true m' (w.dropWhile p) [] := by
  cases w with
  | nil => exact ⟨_, .ended (.ended rfl) .repeated_none rfl⟩
  | cons c w =>
    obtain ⟨m', hcomes⟩ := Comes.repeated_some h (c :: w) 0 le_rfl
    exact ⟨m', hcomes.repeated_start⟩

/-- All characters of a class that a text starts with; one at least. -/
theorem Comes.repeated {p : BString → Bool} {e : Bool} (h : Class P create p e) (w : List BString) :
    ∃ m', Comes P (repeated create none 1 0 0 none) w false (decide (w.takeWhile p ≠ [])) m'
      (w.dropWhile p) [] := by
  match w with
  | [] => exact ⟨_, .ended (.ended rfl) .repeated_none rfl⟩
  | c :: w =>
    cases hc : p c with
    | true =>
      obtain ⟨k, hturn, hr⟩ := h.takes c hc
      obtain ⟨m', hw⟩ := Comes.repeated_some h w 1 le_rfl
      have hitem : Turn P (Match.repeated create none 1 0 0 none) c
        (Match.repeated create (some create) 1 0 1 none) true [] :=
        hturn.repeated_item hr
      rw [List.dropWhile_cons_of_pos hc, List.takeWhile_cons_of_pos hc,
        decide_eq_true (List.cons_ne_nil _ _)]
      exact ⟨m', hw.taken hitem h.result⟩
    | false =>
      obtain ⟨k, hturn, hr⟩ := h.refuses c hc
      have hlast : Turn P (Match.repeated create none 1 0 0 none) c
        (Match.repeated create (some k) 1 0 0 (some (decide (1 ≤ 0)))) false [] :=
        hturn.repeated_failed hr
      rw [List.dropWhile_cons_of_neg (by simp [hc]), List.takeWhile_cons_of_neg (by simp [hc]),
        decide_eq_false (not_not.mpr rfl)]
      exact ⟨_, .failed (.failed hlast rfl)⟩

/-- A repetition comes to what its item comes to, and what comes after. -/
theorem Reads.repeated {out : Outcome κ σ τ} {rest' : List BString} (hc : create.result = none)
    (h : Reads P m w s out calls)
    (hdone : ∀ m' rest, out = .done m' rest →
      ∃ s' k, Comes P (repeated create (some create) lo 0 (n + 1) none) rest s' r k rest' calls')
    (hfailed : ∀ m' rest, out = .failed m' rest → r = decide (lo ≤ n) ∧ rest' = rest ∧ calls' = [])
    (hended : ∀ k, out = .ended k → rest' = [] ∧ ∃ k',
      Finishes P (repeated create (some k) lo 0 n none) k' calls' ∧ k'.result = some r) :
    ∃ s' k, Comes P (repeated create (some m) lo 0 n none) w s' r k rest' (calls ++ calls') := by
  induction h with
  | ended hr =>
    obtain ⟨rfl, k', hk', hr'⟩ := hended _ rfl
    exact ⟨false, k', .ended (.ended hr) hk' hr'⟩
  | taken h hr hw ih =>
    obtain ⟨s', k, hk⟩ := ih hdone hfailed hended
    rw [List.append_assoc]
    exact ⟨s', k, hk.taken (h.repeated_more hr) hr⟩
  | done h hr =>
    obtain ⟨s', k, hk⟩ := hdone _ _ rfl
    exact ⟨s', k, hk.taken (h.repeated_item hr) hc⟩
  | late h hr =>
    obtain ⟨s', k, hk⟩ := hdone _ _ rfl
    exact ⟨true, k, hk.left (h.repeated_item hr) hc⟩
  | @failed m m' c w calls h hr =>
    obtain ⟨rfl, rfl, rfl⟩ := hfailed _ _ rfl
    have hturn : Turn P (Match.repeated create (some m) lo 0 n none) c _ false calls :=
      Turn.repeated_failed h hr
    rw [List.append_nil]
    cases hn : decide (lo ≤ n) with
    | true => exact ⟨false, _, .done (.late hturn (congrArg some hn))⟩
    | false => exact ⟨false, _, .failed (.failed hturn (congrArg some hn))⟩
  | stalled h hr hw ih =>
    obtain ⟨s', k, hk⟩ := ih hdone hfailed hended
    rw [List.append_assoc]
    exact ⟨true, k, hk.left (h.repeated_more hr) hr⟩

/-- One more item of a text. -/
theorem Comes.repeated_item {rest' : List BString} (hc : create.result = none)
    (h : Comes P create w s true m' rest calls)
    (hnext : ∃ s' k, Comes P (Match.repeated create (some create) lo 0 (n + 1) none)
      rest s' true k rest' calls')
    (hnil : rest = [] → rest' = [] ∧ calls' = []) (hlo : lo ≤ n + 1) :
    ∃ s' k, Comes P (Match.repeated create (some create) lo 0 n none) w s' true k rest'
      (calls ++ calls') := by
  cases h with
  | done h =>
    refine h.repeated hc (fun k rest heq => ?_) nofun nofun
    obtain ⟨-, rfl⟩ := Outcome.done.injEq _ _ _ _ ▸ heq
    exact hnext
  | ended h he hr =>
    obtain ⟨rfl, rfl⟩ := hnil rfl
    rw [List.append_nil]
    refine h.repeated hc nofun nofun fun k heq => ⟨rfl, ?_⟩
    obtain rfl := Outcome.ended.inj heq
    exact ⟨_, he.repeated_some h.result_ended hr, by simp [Match.result, hlo]⟩

/-- A text that starts with no item. -/
theorem Comes.repeated_stop (hc : create.result = none)
    (h : Comes P create w s false m' rest calls) :
    ∃ s' k, Comes P (Match.repeated create (some create) lo 0 n none) w s' (decide (lo ≤ n))
      k rest calls := by
  cases h with
  | failed h =>
    rw [← List.append_nil calls]
    exact h.repeated hc nofun (fun k rest heq => ⟨rfl, (Outcome.failed.inj heq).2, rfl⟩) nofun
  | ended h he hr =>
    refine h.repeated hc nofun nofun fun k heq => ⟨rfl, ?_⟩
    obtain rfl := Outcome.ended.inj heq
    exact ⟨_, he.repeated_some h.result_ended hr, rfl⟩

end

/-! ### Alternatives -/

section

variable {before after before' after' inputs ms : List (Match κ σ τ)} {item : Option ℕ}
    {matched matched' : Bool}

variable (P) in
/-- A matcher that has failed, at the end of the text too. -/
def Dead (m : Match κ σ τ) : Prop :=
  m.result = some false ∧ ∃ m', Finishes P m m' [] ∧ m'.result = some false

variable (P) in
/-- A matcher that does not start with a character. -/
def Refuses (c : BString) (m : Match κ σ τ) : Prop :=
  m.result = none ∧ ∃ m', Turn P m c m' false [] ∧ Dead P m'

theorem Tries.dead : ∀ {inputs before : List (Match κ σ τ)}, (∀ k ∈ inputs, Dead P k) →
    Tries P c (before ++ inputs) matched after ms matched' item calls →
      Tries P c before matched (inputs ++ after) ms matched' item calls
  | [], _, _, hnext => by rwa [List.append_nil] at hnext
  | k :: inputs, before, h, hnext => by
    refine .failed (h k List.mem_cons_self).1
      (Tries.dead (fun m hm => h m (List.mem_cons_of_mem k hm)) ?_)
    rwa [List.append_assoc]

theorem Tries.all_dead (h : ∀ k ∈ inputs, Dead P k) :
    Tries P c before matched inputs (before ++ inputs) matched none [] := by
  rw [← List.append_nil inputs]
  refine .dead h ?_
  rw [List.append_nil]
  exact .nil

/-- The inputs that refuse a character are dead from then on. -/
theorem exists_dead : ∀ {inputs : List (Match κ σ τ)}, (∀ k ∈ inputs, Refuses P c k) → ∃ inputs',
    inputs'.length = inputs.length ∧
    (∀ k ∈ inputs', Dead P k) ∧ ∀ before matched after ms matched' item calls,
      Tries P c (before ++ inputs') matched after ms matched' item calls →
        Tries P c before matched (inputs ++ after) ms matched' item calls
  | [], _ =>
    ⟨[], rfl, List.forall_mem_nil _, fun before _ _ _ _ _ _ h => by rwa [List.append_nil] at h⟩
  | k :: inputs, h => by
    obtain ⟨hk, k', hturn, hdead⟩ := h k List.mem_cons_self
    obtain ⟨inputs', hlen, hall, htries⟩ := exists_dead fun m hm => h m (List.mem_cons_of_mem k hm)
    refine ⟨k' :: inputs', congrArg Nat.succ hlen, List.forall_mem_cons.mpr ⟨hdead, hall⟩,
      fun before matched after ms matched' item calls hnext => ?_⟩
    refine .more hturn hk (by simp [hdead.1]) ?_
    rw [Bool.or_false]
    refine htries _ _ _ _ _ _ _ ?_
    rwa [List.append_assoc]

/-- What an alternative comes to where all inputs but one are dead. -/
def Outcome.or (before after : List (Match κ σ τ)) : Outcome κ σ τ → Outcome κ σ τ
  | .done m rest => .done (.or (before ++ m :: after) (some before.length) (some true)) rest
  | .failed m rest => .failed (.or (before ++ m :: after) none (some false)) rest
  | .ended m => .ended (.or (before ++ m :: after) none none)

theorem Tries.alive (hb : ∀ k ∈ before, Dead P k) (ha : ∀ k ∈ after, Dead P k)
    (h : Turn P m c m' b calls) (hm : m.result = none)
    (hm' : m'.result ≠ some true) :
    Tries P c [] false (before ++ m :: after) (before ++ m' :: after) b none calls := by
  refine .dead hb ?_
  rw [← List.append_nil calls, List.append_cons before m' after]
  refine .more h hm hm' ?_
  rw [Bool.false_or]
  exact .all_dead ha

theorem Tries.alive_found (hb : ∀ k ∈ before, Dead P k) (h : Turn P m c m' b calls)
    (hm : m.result = none) (hm' : m'.result = some true) :
    Tries P c [] false (before ++ m :: after) (before ++ m' :: after) b (some before.length)
      calls := by
  have hfound : Tries P c ([] ++ before) false (m :: after) _ (false || b) _ calls :=
    .found h hm hm'
  rw [Bool.false_or] at hfound
  exact .dead hb hfound

/-- An alternative comes to what its last input comes to that is not dead. -/
theorem Reads.or {out : Outcome κ σ τ} (hb : ∀ k ∈ before, Dead P k) (ha : ∀ k ∈ after, Dead P k)
    (h : Reads P m w s out calls) (hs : s = false)
    (hm : m.result = none) :
    Reads P (Match.or (before ++ m :: after) none none) w false (out.or before after) calls := by
  induction h with
  | ended _ => exact .ended rfl
  | taken h hr _ ih => exact .taken (.or_none (.alive hb ha h hm (by simp [hr]))) rfl (ih hs hr)
  | done h hr => exact .done (.or_found (.alive_found hb h hm hr)) rfl
  | late h hr => exact .late (.or_found (.alive_found hb h hm hr)) rfl
  | failed h hr => exact .failed (.or_none (.alive hb ha h hm (by simp [hr]))) rfl
  | stalled _ _ _ _ => exact nomatch hs

theorem orEof_dead : ∀ {inputs : List (Match κ σ τ)} (before : List (Match κ σ τ)),
    (∀ k ∈ inputs, Dead P k) → ∃ inputs' n,
    inputs'.length = inputs.length ∧ ∀ after fuel, n ≤ fuel →
      orEof (eof P fuel) before (inputs ++ after) = orEof (eof P fuel) (before ++ inputs') after
  | [], before, _ => ⟨[], 0, rfl, fun after _ _ => by rw [List.append_nil, List.nil_append]⟩
  | k :: inputs, before, h => by
    obtain ⟨-, k', ⟨n, hn⟩, hk'⟩ := h k List.mem_cons_self
    obtain ⟨inputs', n', hlen, hrest⟩ := orEof_dead (before ++ [k']) fun m hm =>
      h m (List.mem_cons_of_mem k hm)
    refine ⟨k' :: inputs', max n n', congrArg Nat.succ hlen, fun after fuel hf => ?_⟩
    have hnext := hrest after fuel (Nat.max_le.mp hf).2
    rw [List.append_assoc, List.singleton_append] at hnext
    rw [List.cons_append, orEof, hn fuel (Nat.max_le.mp hf).1, Run.ok_bind, ← hnext]
    simp only [hk', Option.some.injEq, Bool.false_eq_true, if_false, List.nil_append]
    exact Run.bind_ok _

theorem Finishes.or (hb : ∀ k ∈ before, Dead P k) (ha : ∀ k ∈ after, Dead P k)
    (h : Finishes P m m' calls) (hr : m'.result = some r) :
    ∃ inputs item, Finishes P (Match.or (before ++ m :: after) none none)
      (Match.or inputs item (some r)) calls ∧
      (r = true → item = some before.length ∧ inputs[before.length]? = some m') := by
  obtain ⟨n, hn⟩ := h
  obtain ⟨before', n', hlen, hbefore⟩ := orEof_dead [] hb
  obtain ⟨after', n'', -, hafter⟩ := orEof_dead (before' ++ [m']) ha
  have hrun : ∀ fuel, max n (max n' n'') ≤ fuel → orEof (eof P fuel) [] (before ++ m :: after) =
      .ok (if r then before' ++ m' :: after else before' ++ m' :: after',
        if r then some before.length else none, calls) := by
    intro fuel hf
    have hlast := hafter [] fuel (by omega)
    rw [List.append_nil, orEof] at hlast
    rw [hbefore _ fuel (by omega), List.nil_append, orEof, hn fuel (by omega), Run.ok_bind]
    cases r with
    | true =>
      simp only [hr, if_true, hlen]
      rfl
    | false =>
      simp only [hr, Option.some.injEq, Bool.false_eq_true, if_false, hlast]
      change Run.ok _ = _
      rw [List.append_nil, List.append_assoc]
      rfl
  refine ⟨if r then before' ++ m' :: after else before' ++ m' :: after',
    if r then some before.length else none,
    .of_succ (max n (max n' n'')) fun fuel hf => ?_, ?_⟩
  · rw [eof, if_neg nofun, hrun fuel hf, Run.ok_bind]
    cases r <;> rfl
  · rintro rfl
    exact ⟨rfl, by simp [hlen]⟩

/-- The first character leaves one input alive. -/
theorem Reads.or_start {out : Outcome κ σ τ} (hb : ∀ k ∈ before, Refuses P c k)
    (ha : ∀ k ∈ after, Refuses P c k)
    (h : Reads P m (c :: w) false out calls) (hm : m.result = none) : ∃ before' after',
      before'.length = before.length ∧ (∀ k ∈ before', Dead P k) ∧
      (out.result ≠ some true → ∀ k ∈ after', Dead P k) ∧
      Reads P (Match.or (before ++ m :: after) none none) (c :: w) false (out.or before' after')
        calls := by
  obtain ⟨before', hlen, hbefore, hskip⟩ := exists_dead hb
  obtain ⟨after', -, hafter, hskip'⟩ := exists_dead ha
  have hfirst : ∀ {m' b calls}, Turn P m c m' b calls → m'.result ≠ some true →
      Tries P c [] false (before ++ m :: after) (before' ++ m' :: after') b none calls := by
    intro m' b calls hturn hr
    refine hskip _ _ _ _ _ _ _ ?_
    rw [← List.append_nil calls, List.append_cons before' m' after']
    refine .more hturn hm hr ?_
    have hend : Tries P c ([] ++ before' ++ [m']) (false || b) (after ++ [])
      ([] ++ before' ++ [m'] ++ after') (false || b) none [] :=
      hskip' _ _ _ _ _ _ _ .nil
    rwa [List.append_nil, Bool.false_or] at hend
  have hfound : ∀ {m' b calls}, Turn P m c m' b calls → m'.result = some true →
      Tries P c [] false (before ++ m :: after) (before' ++ m' :: after) b (some before'.length)
        calls := by
    intro m' b calls hturn hr
    refine hskip _ _ _ _ _ _ _ ?_
    have hfound : Tries P c ([] ++ before') false (m :: after) _ (false || b) _ calls :=
      .found hturn hm hr
    rwa [Bool.false_or] at hfound
  cases h with
  | taken h hr hw =>
    exact ⟨before', after', hlen, hbefore, fun _ => hafter,
      .taken (.or_none (hfirst h (by simp [hr]))) rfl (hw.or hbefore hafter rfl hr)⟩
  | done h hr =>
    exact ⟨before', after, hlen, hbefore, fun hne => absurd rfl hne,
      .done (.or_found (hfound h hr)) rfl⟩
  | late h hr =>
    exact ⟨before', after, hlen, hbefore, fun hne => absurd rfl hne,
      .late (.or_found (hfound h hr)) rfl⟩
  | failed h hr =>
    exact ⟨before', after', hlen, hbefore, fun _ => hafter,
      .failed (.or_none (hfirst h (by simp [hr]))) rfl⟩

/-- **Alternatives.** Where all inputs but one refuse the first character, the
alternative comes to what this one comes to. -/
theorem Comes.or (hb : ∀ k ∈ before, Refuses P c k) (ha : ∀ k ∈ after, Refuses P c k)
    (h : Comes P m (c :: w) false r m' rest calls)
    (hm : m.result = none) : ∃ inputs item, Comes P (Match.or (before ++ m :: after) none none)
      (c :: w) false r (Match.or inputs item (some r)) rest calls ∧
      (r = true → item = some before.length ∧ inputs[before.length]? = some m') := by
  cases h with
  | done h =>
    obtain ⟨before', after', hlen, -, -, hread⟩ := h.or_start hb ha hm
    exact ⟨_, _, .done hread, fun _ => ⟨congrArg some hlen, by simp [← hlen]⟩⟩
  | failed h =>
    obtain ⟨before', after', -, -, -, hread⟩ := h.or_start hb ha hm
    exact ⟨_, _, .failed hread, nofun⟩
  | ended h he hr =>
    obtain ⟨before', after', hlen, hbefore, hafter, hread⟩ := h.or_start hb ha hm
    obtain ⟨inputs, item, hend, hfound⟩ := he.or hbefore (hafter nofun) hr
    exact ⟨inputs, item, .ended hread hend rfl, by rwa [hlen] at hfound⟩

/-- An alternative of which no input starts with the character. -/
theorem Turn.or_refuses (h : ∀ k ∈ inputs, Refuses P c k) : ∃ ms, Turn P (Match.or inputs none none)
    c (Match.or ms none (some false)) false [] := by
  obtain ⟨inputs', -, -, hskip⟩ := exists_dead h
  have hend : Tries P c [] false (inputs ++ []) ([] ++ inputs') false none [] :=
    hskip _ _ _ _ _ _ _ .nil
  rw [List.append_nil] at hend
  exact ⟨_, .or_none hend⟩

theorem Refuses.or (h : ∀ k ∈ inputs, Refuses P c k) : Refuses P c (Match.or inputs none none) := by
  obtain ⟨ms, hturn⟩ := Turn.or_refuses h
  exact ⟨rfl, _, hturn, rfl, _, .of_succ 0 fun _ _ => rfl, rfl⟩

theorem Dead.capture {v : BString} (h : Dead P m) :
    Dead P (Match.capture (fun _ => true) v m (some false)) := by
  have hr := h.1
  exact ⟨rfl, _, .of_succ 0 fun fuel _ => by rw [eof, if_neg (by simp [hr])]; rfl, rfl⟩

theorem Refuses.capture {v : BString} (h : Refuses P c m) :
    Refuses P c (Match.capture (fun _ => true) v m none) := by
  obtain ⟨hm, m', hturn, hdead⟩ := h
  have hcapture := hturn.capture (v := v) hm
  rw [hdead.1] at hcapture
  exact ⟨by simp [Match.result, hm], _, hcapture, hdead.capture⟩

theorem Refuses.invoke {f : τ} (h : Refuses P c m) : Refuses P c (Match.invoke f m none) := by
  obtain ⟨hm, m', hturn, hdead⟩ := h
  have hinvoke := hturn.invoke (f := f) hm
  have hr := hdead.1
  simp only [hr, Option.some.injEq, Bool.false_eq_true, if_false, List.append_nil] at hinvoke
  exact ⟨by simp [Match.result, hm], _, hinvoke, rfl, _,
    .of_succ 0 fun fuel _ => by rw [eof, if_neg (by simp [hr])]; rfl, rfl⟩

theorem Refuses.object {self : σ} (hsuccess : P.success self = true) (h : Refuses P c m) :
    Refuses P c (Match.object self m none) := by
  obtain ⟨hm, m', hturn, hdead⟩ := h
  have hobject : Turn P (Match.object self m none) c (Match.object self m' m'.result) false [] :=
    hturn.object hm rfl hsuccess
  have hr := hdead.1
  rw [hr] at hobject
  exact ⟨by simp [Match.result, hm], _, hobject, rfl, _,
    .of_succ 0 fun fuel _ => by rw [eof, if_neg (by simp [hr])]; rfl, rfl⟩

/-- A sequence refuses what its first input refuses. -/
theorem Refuses.and (after : List (Match κ σ τ)) (h : Refuses P c m) :
    Refuses P c (Match.and (m :: after) 0 none) := by
  obtain ⟨-, m', hturn, hdead⟩ := h
  have hfirst : Turn P (Match.and ([] ++ m :: after) ([] : List (Match κ σ τ)).length none)
    c _ false [] := hturn.and_failed hdead.1
  exact ⟨rfl, _, hfirst, rfl, _, .of_succ 0 fun _ _ => rfl, rfl⟩

/-- A sequence that goes on to its second input. -/
theorem Refuses.and_next {k : Match κ σ τ} (after : List (Match κ σ τ))
    (hturn : Turn P m c m' false []) (hr : m'.result = some true)
    (h : Refuses P c k) : Refuses P c (Match.and (m :: k :: after) 0 none) := by
  obtain ⟨-, k', hturn', hdead⟩ := h
  have hsecond : Turn P (Match.and ([m'] ++ k :: after) [m'].length none) c _ false [] :=
    hturn'.and_failed hdead.1
  have hfirst : Turn P (Match.and ([] ++ m :: k :: after) ([] : List (Match κ σ τ)).length none)
    c _ false ([] ++ []) :=
    hturn.and_next (List.cons_ne_nil _ _) hr hsecond
  exact ⟨rfl, _, hfirst, rfl, _, .of_succ 0 fun _ _ => rfl, rfl⟩

theorem Refuses.character {k : BString} (h : k ≠ c) :
    Refuses P c (Match.character (some k) none) := by
  have hturn := Turn.character (P := P) k c
  rw [beq_false_of_ne h] at hturn
  exact ⟨rfl, _, hturn, rfl, _, .of_succ 0 fun _ _ => rfl, rfl⟩

theorem Refuses.word {x y : UInt8} (letters : BString) (h : y ≠ x) :
    Refuses P [y] (Match.word id (x :: letters) none) := by
  refine ⟨rfl, .word id (x :: letters) (some false), .of_succ 0 fun fuel _ => ?_, rfl, _,
    .of_succ 0 fun _ _ => rfl, rfl⟩
  rw [matches_, if_neg nofun]
  simp [matchChar, h]

theorem Refuses.repeated {create : Match κ σ τ} (h : Refuses P c create) :
    Refuses P c (Match.repeated create none 1 0 0 none) := by
  obtain ⟨-, m', hturn, hdead⟩ := h
  have hrepeat : Turn P (Match.repeated create none 1 0 0 none) c _ false [] :=
    hturn.repeated_failed hdead.1
  have hr := hdead.1
  exact ⟨rfl, _, hrepeat, rfl, _, .of_succ 0 fun fuel _ => by rw [eof]; simp only [hr]; rfl, rfl⟩

end

/-! ### Words -/

section

variable (lower : BString → BString)

/-- How many characters of a text are the letters of a word. -/
def common : BString → List BString → ℕ
  | x :: letters, c :: w => if lower c = [x] then common letters w + 1 else 0
  | _, _ => 0

/-- Each character is one letter, or it starts with none of the word. -/
def Lettered (letters : BString) (w : List BString) : Prop :=
  ∀ c ∈ w, ∃ b t, lower c = b :: t ∧ (t = [] ∨ b ∉ letters)

end

section

variable {lower : BString → BString} {x y : UInt8} {letters : BString}

theorem Lettered.tail (h : Lettered lower (x :: letters) (c :: w)) : Lettered lower letters w :=
  fun d hd =>
  have ⟨b, t, heq, hb⟩ := h d (List.mem_cons_of_mem c hd)
  ⟨b, t, heq, hb.imp_right fun hb hmem => hb (List.mem_cons_of_mem x hmem)⟩

theorem Lettered.drop (h : Lettered lower letters w) (n : ℕ) : Lettered lower letters (w.drop n) :=
  fun c hc => h c (List.mem_of_mem_drop hc)

theorem common_le (lower : BString → BString) : ∀ (letters : BString) (w : List BString),
    common lower letters w ≤ w.length
  | [], _ => Nat.zero_le _
  | _ :: _, [] => Nat.zero_le _
  | x :: letters, c :: w => by
    have ih := common_le lower letters w
    rw [common, List.length_cons]
    split_ifs <;> omega

theorem matches_letter (n : ℕ) (hc : lower c = [x]) :
    matches_ P (n + 1) (.word lower (x :: letters) none) c =
      .ok (.word lower letters (if letters = [] then some true else none), true, []) := by
  rw [matches_, if_neg nofun, hc, matchChar, if_neg (not_not.mpr rfl)]
  cases letters <;> rfl

theorem matches_letter_ne (n : ℕ) (hs : Lettered lower (x :: letters) (c :: w))
    (hc : lower c ≠ [x]) :
    ∃ index, matches_ P (n + 1) (.word lower (x :: letters) none) c =
      .ok (.word lower index (some false), false, []) := by
  obtain ⟨b, t, heq, hb⟩ := hs c List.mem_cons_self
  have hnot : ¬ lower c <+: x :: letters := by
    rw [heq, List.cons_prefix_cons]
    rintro ⟨rfl, -⟩
    rcases hb with rfl | hb
    · exact hc heq
    · exact hb List.mem_cons_self
  have hfalse := (matchChar_spec (List.cons_ne_nil x letters)).2 hnot
  refine ⟨(matchChar (x :: letters) (lower c)).1, ?_⟩
  rw [matches_, if_neg nofun]
  simp [hfalse]

/-- A word takes the letters that agree, and has succeeded where all do. -/
theorem Comes.word : ∀ {letters : BString} {w : List BString}, letters ≠ [] →
    Lettered lower letters w →
    ∃ m', Comes P (word lower letters none) w false
      (decide (common lower letters w = letters.length)) m' (w.drop (common lower letters w)) []
  | x :: letters, [], _, _ =>
    ⟨.word lower (x :: letters) (some false), .ended (.ended rfl) (.of_succ 0 fun _ _ => rfl) rfl⟩
  | x :: letters, c :: w, _, hs => by
    by_cases hc : lower c = [x]
    · have hturn : Turn P (.word lower (x :: letters) none) c
        (.word lower letters (if letters = [] then some true else none)) true [] :=
        .of_succ 0 fun fuel _ => matches_letter fuel hc
      rw [common, if_pos hc, List.drop_succ_cons, List.length_cons]
      by_cases h0 : letters = []
      · subst h0
        exact ⟨_, .done (.done hturn rfl)⟩
      · obtain ⟨m', hw⟩ := Comes.word h0 hs.tail
        rw [if_neg h0] at hturn
        simp only [Nat.add_right_cancel_iff]
        exact ⟨m', hw.taken hturn rfl⟩
    · obtain ⟨index, hrun⟩ := matches_letter_ne (P := P) 0 hs hc
      rw [common, if_neg hc]
      exact ⟨_, .failed (.failed (Turn.of_eq 1 hrun) rfl)⟩

/-! ### A word or a longer one -/

/-- `OrderOfPrecedence` of a word with one more letter, and the word. -/
def longer (lower : BString → BString) (letters : BString) (y : UInt8) : Match κ σ τ :=
  .orderOfPrecedence [0, 1] [.word lower (letters ++ [y]) none, .word lower letters none] none none

/-- The word has been read: it is left to the next character which one it is. -/
theorem Comes.longer_last (w : List BString) (hs : Lettered lower [y] w) :
    ∃ m', Comes P (.orderOfPrecedence [0, 1] [.word lower [y] none, .word lower [] (some true)]
      none none) w false true m'
      (w.drop (common lower [y] w)) [] := by
  cases w with
  | nil => exact ⟨_, .ended (.ended rfl) (.of_succ 1 fun fuel hf => by
      obtain ⟨j, rfl⟩ : ∃ j, fuel = j + 1 := ⟨fuel - 1, by omega⟩
      rfl) rfl⟩
  | cons c w =>
    by_cases hc : lower c = [y]
    · have hword : ∀ n, matches_ P (n + 1) (.word lower [y] none) c =
        .ok (.word lower [] (some true), true, []) :=
        fun n => matches_letter n hc
      have hturn :
        Turn P (.orderOfPrecedence [0, 1] [.word lower [y] none, .word lower [] (some true)]
        none none) c
          (.orderOfPrecedence [0, 1] [.word lower [] (some true), .word lower [] (some true)]
            (some 0) (some true)) true [] := by
        refine Turn.of_eq 2 ?_
        rw [matches_, if_neg nofun]
        simp [precedenceLoop, hword, Match.result, confirm]
      rw [common, if_pos hc]
      exact ⟨_, .done (.done hturn rfl)⟩
    · obtain ⟨index, hrun⟩ := matches_letter_ne (P := P) 0 hs hc
      have hturn :
        Turn P (.orderOfPrecedence [0, 1] [.word lower [y] none, .word lower [] (some true)]
        none none) c
          (.orderOfPrecedence [0, 1] [.word lower index (some false), .word lower [] (some true)]
            (some 1) (some true)) false [] := by
        refine Turn.of_eq 2 ?_
        rw [matches_, if_neg nofun]
        simp [precedenceLoop, hrun, Match.result, confirm]
      rw [common, if_neg hc]
      exact ⟨_, .done (.late hturn rfl)⟩

/-- The longer word where the text has it, and else the word. -/
theorem Comes.longer : ∀ {letters : BString} {w : List BString}, letters ≠ [] →
    Lettered lower (letters ++ [y]) w →
    ∃ m', Comes P (longer lower letters y) w false
      (decide (letters.length ≤ common lower (letters ++ [y]) w)) m'
      (w.drop (common lower (letters ++ [y]) w)) []
  | x :: letters, [], _, _ => ⟨_, .ended (.ended rfl) (.of_succ 1 fun fuel hf => by
      obtain ⟨j, rfl⟩ : ∃ j, fuel = j + 1 := ⟨fuel - 1, by omega⟩
      rfl) rfl⟩
  | x :: letters, c :: w, _, hs => by
    by_cases hc : lower c = [x]
    · have hword : ∀ n letters, matches_ P (n + 1) (.word lower (x :: letters) none) c =
          .ok (.word lower letters (if letters = [] then some true else none), true, []) :=
            fun n letters => matches_letter n hc
      have hne : letters ++ [y] ≠ [] := by simp
      have hturn : Turn P (Match.longer lower (x :: letters) y) c
          (.orderOfPrecedence [0, 1] [.word lower (letters ++ [y]) none,
            .word lower letters (if letters = [] then some true else none)] none none)
          true [] := by
        refine Turn.of_eq 2 ?_
        rw [Match.longer, List.cons_append, matches_, if_neg nofun]
        by_cases h0 : letters = [] <;> simp [precedenceLoop, hword, Match.result, confirm, h0]
      rw [List.cons_append] at hs ⊢
      rw [common, if_pos hc, List.drop_succ_cons, List.length_cons]
      simp only [Nat.add_le_add_iff_right]
      by_cases h0 : letters = []
      · subst h0
        obtain ⟨m', hw⟩ := Comes.longer_last w hs.tail
        exact ⟨m', hw.taken hturn rfl⟩
      · obtain ⟨m', hw⟩ := Comes.longer h0 hs.tail
        rw [if_neg h0] at hturn
        exact ⟨m', hw.taken hturn rfl⟩
    · have hs' : Lettered lower (x :: letters) (c :: w) := fun d hd =>
        have ⟨b, t, heq, hb⟩ := hs d hd
        ⟨b, t, heq, hb.imp_right fun hb hmem => hb (List.mem_append_left _ hmem)⟩
      obtain ⟨index, hrun⟩ := matches_letter_ne (P := P) 0 hs hc
      obtain ⟨index', hrun'⟩ := matches_letter_ne (P := P) 0 hs' hc
      have hturn : Turn P (Match.longer lower (x :: letters) y) c
          (.orderOfPrecedence [0, 1] [.word lower index (some false),
            .word lower index' (some false)] none (some false)) false [] := by
        refine Turn.of_eq 2 ?_
        rw [Match.longer, List.cons_append, matches_, if_neg nofun]
        rw [List.append_eq] at hrun
        simp [precedenceLoop, hrun, hrun', Match.result]
      rw [List.cons_append, common, if_neg hc]
      exact ⟨_, .failed (.failed hturn rfl)⟩

end

end Match

/-! ### The parser -/

namespace Parser

open Match

variable {P : Program κ σ τ φ} {m m' : Match κ σ τ} {w rest : List BString} {r : Bool}
    {calls : List (τ × Match κ σ τ)}

theorem push_of_reads {out : Outcome κ σ τ} (h : Reads P m w false out calls) :
    ∃ n, ∀ fuel, n ≤ fuel → push P fuel m w = .ok out.match_ := by
  generalize hs : false = s at h
  induction h with
  | ended _ => exact ⟨0, fun _ _ => rfl⟩
  | taken h hr _ ih =>
    obtain ⟨n, hn⟩ := h
    obtain ⟨n', hn'⟩ := ih hs
    refine ⟨max n n', fun fuel hf => ?_⟩
    rw [push, hn fuel (Nat.max_le.mp hf).1, Run.ok_bind]
    simpa [hr] using hn' fuel (Nat.max_le.mp hf).2
  | done h hr =>
    obtain ⟨n, hn⟩ := h
    refine ⟨n, fun fuel hf => ?_⟩
    rw [push, hn fuel hf, Run.ok_bind]
    simp [hr, Outcome.match_]
  | late h hr =>
    obtain ⟨n, hn⟩ := h
    refine ⟨n, fun fuel hf => ?_⟩
    rw [push, hn fuel hf, Run.ok_bind]
    simp [hr, Outcome.match_]
  | failed h hr =>
    obtain ⟨n, hn⟩ := h
    refine ⟨n, fun fuel hf => ?_⟩
    rw [push, hn fuel hf, Run.ok_bind]
    simp [hr, Outcome.match_]
  | stalled _ _ _ _ => exact nomatch hs

/-- What the matcher comes to is what the parser comes to. -/
theorem eof_of_comes {s : BString} (h : Comes P m (characters s) false r m' rest calls) :
    ∃ n, ∀ fuel, n ≤ fuel →
    (read P fuel ⟨m, none⟩ s >>= eof P fuel) = .ok ⟨m', some r⟩ := by
  cases h with
  | done h =>
    obtain ⟨n, hn⟩ := push_of_reads h
    refine ⟨n, fun fuel hf => ?_⟩
    rw [read, hn fuel hf, Run.ok_bind]
    simp [Outcome.match_, h.result_done, eof]
  | failed h =>
    obtain ⟨n, hn⟩ := push_of_reads h
    refine ⟨n, fun fuel hf => ?_⟩
    rw [read, hn fuel hf, Run.ok_bind]
    simp [Outcome.match_, h.result_failed, eof]
  | ended h he hr =>
    obtain ⟨n, hn⟩ := push_of_reads h
    obtain ⟨n', hn'⟩ := he
    refine ⟨max n n', fun fuel hf => ?_⟩
    rw [read, hn fuel (Nat.max_le.mp hf).1, Run.ok_bind]
    simp [Outcome.match_, h.result_ended, eof, hn' fuel (Nat.max_le.mp hf).2, hr]

end Parser

end BeeFish
