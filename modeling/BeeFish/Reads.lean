/-
# Matchers with calls

What a matcher comes to with a text that it is pushed, a character again where
it has not taken it and has no result, and the calls of `onsuccess` on the way:
it is done, with the rest of the text, it has failed at a character, or the
text has ended. Each class comes to what its parts come to, so that what a
grammar does with a text is put together along its rules.

Key definitions: `Match.Turn`, `Match.Outcome`, `Match.Reads`, `Match.Tries`.
-/
import BeeFish.Match

namespace BeeFish

variable {κ σ τ φ : Type}

namespace Match

variable (P : Program κ σ τ φ)

/-- What the matcher does with a character, with enough fuel. -/
def Turn (m : Match κ σ τ) (c : BString) (m' : Match κ σ τ) (matched : Bool)
    (calls : List (τ × Match κ σ τ)) : Prop :=
  ∃ n, ∀ fuel, n ≤ fuel → matches_ P fuel m c = .ok (m', matched, calls)

/-- Where a text has brought a matcher. -/
inductive Outcome (κ σ τ : Type) where
  | done (m : Match κ σ τ) (rest : List BString)
  | failed (m : Match κ σ τ) (rest : List BString)
  | ended (m : Match κ σ τ)

/-- What the matcher comes to with a text. It has stalled where it has neither
taken a character nor come to a result with it. -/
inductive Reads : Match κ σ τ → List BString → Bool → Outcome κ σ τ → List (τ × Match κ σ τ) → Prop
  | ended {m : Match κ σ τ} (hr : m.result = none) : Reads m [] false (.ended m) []
  | taken {m m' : Match κ σ τ} {c : BString} {w : List BString} {stalled : Bool}
      {out : Outcome κ σ τ}
      {calls calls' : List (τ × Match κ σ τ)} (h : Turn P m c m' true calls) (hr : m'.result = none)
      (hw : Reads m' w stalled out calls') : Reads m (c :: w) stalled out (calls ++ calls')
  | done {m m' : Match κ σ τ} {c : BString} {w : List BString} {calls : List (τ × Match κ σ τ)}
      (h : Turn P m c m' true calls)
      (hr : m'.result = some true) : Reads m (c :: w) false (.done m' w) calls
  | late {m m' : Match κ σ τ} {c : BString} {w : List BString} {calls : List (τ × Match κ σ τ)}
      (h : Turn P m c m' false calls)
      (hr : m'.result = some true) : Reads m (c :: w) false (.done m' (c :: w)) calls
  | failed {m m' : Match κ σ τ} {c : BString} {w : List BString} {calls : List (τ × Match κ σ τ)}
      (h : Turn P m c m' false calls)
      (hr : m'.result = some false) : Reads m (c :: w) false (.failed m' (c :: w)) calls
  | stalled {m m' : Match κ σ τ} {c : BString} {w : List BString} {stalled : Bool}
      {out : Outcome κ σ τ}
      {calls calls' : List (τ × Match κ σ τ)} (h : Turn P m c m' false calls)
        (hr : m'.result = none)
      (hw : Reads m' (c :: w) stalled out calls') : Reads m (c :: w) true out (calls ++ calls')

namespace Outcome

/-- The matchers of an outcome, in a matcher that has these as its part. -/
def map (g : Match κ σ τ → Match κ σ τ) : Outcome κ σ τ → Outcome κ σ τ
  | done m rest => done (g m) rest
  | failed m rest => failed (g m) rest
  | ended m => ended (g m)

/-- The calls when there is a result. -/
def calls (after : Match κ σ τ → List (τ × Match κ σ τ)) : Outcome κ σ τ → List (τ × Match κ σ τ)
  | done m _ => after m
  | failed m _ => after m
  | ended _ => []

/-- The text that is left. -/
def rest : Outcome κ σ τ → List BString
  | done _ rest => rest
  | failed _ rest => rest
  | ended _ => []

end Outcome

variable {P} {m m' : Match κ σ τ} {c : BString} {w : List BString} {out : Outcome κ σ τ}
    {s b : Bool} {calls calls' : List (τ × Match κ σ τ)}

theorem Turn.of_eq (fuel : ℕ) (h : matches_ P fuel m c = .ok (m', b, calls)) :
    Turn P m c m' b calls :=
  ⟨fuel, fun _ hf => (matches_mono c hf m).ok h⟩

/-- The character that an outcome comes with. -/
theorem Reads.rest_suffix (h : Reads P m w s out calls) : out.rest <:+ w := by
  induction h with
  | ended _ => exact List.suffix_rfl
  | taken _ _ _ ih => exact ih.trans (List.suffix_cons _ _)
  | done _ _ => exact List.suffix_cons _ _
  | late _ _ => exact List.suffix_rfl
  | failed _ _ => exact List.suffix_rfl
  | stalled _ _ _ ih => exact ih

/-! ### A part and what it is in -/

/-- A matcher with one part, which does what the part does and goes on with what
the part has become; `after` are its calls. -/
theorem Reads.lift (g : Match κ σ τ → Match κ σ τ) (after : Match κ σ τ → List (τ × Match κ σ τ))
    (hturn : ∀ {m c m' b calls}, Turn P m c m' b calls → m.result = none →
      Turn P (g m) c (g m') b (calls ++ after m'))
    (hresult : ∀ m, (g m).result = m.result) (hafter : ∀ {m}, m.result = none → after m = [])
    (hm : m.result = none)
    (h : Reads P m w s out calls) :
    Reads P (g m) w s (out.map g) (calls ++ out.calls after) := by
  induction h with
  | ended hr => exact .ended ((hresult _).trans hr)
  | taken h hr _ ih =>
    have ht := hturn h hm
    rw [hafter hr, List.append_nil] at ht
    rw [List.append_assoc]
    exact .taken ht ((hresult _).trans hr) (ih hr)
  | done h hr => exact .done (hturn h hm) ((hresult _).trans hr)
  | late h hr => exact .late (hturn h hm) ((hresult _).trans hr)
  | failed h hr => exact .failed (hturn h hm) ((hresult _).trans hr)
  | stalled h hr _ ih =>
    have ht := hturn h hm
    rw [hafter hr, List.append_nil] at ht
    rw [List.append_assoc]
    exact .stalled ht ((hresult _).trans hr) (ih hr)

theorem Turn.of_succ (n : ℕ)
    (h : ∀ fuel, n ≤ fuel → matches_ P (fuel + 1) m c = .ok (m', b, calls)) :
    Turn P m c m' b calls := by
  refine ⟨n + 1, fun fuel hf => ?_⟩
  obtain ⟨k, rfl⟩ : ∃ k, fuel = k + 1 := ⟨fuel - 1, by omega⟩
  exact h k (Nat.le_of_succ_le_succ hf)

theorem Turn.invoke {f : τ} (h : Turn P m c m' b calls) (hm : m.result = none) :
    Turn P (invoke f m none) c (invoke f m' m'.result) b
      (calls ++ if m'.result = some true then [(f, m')] else []) := by
  obtain ⟨n, hn⟩ := h
  refine .of_succ n fun fuel hf => ?_
  have hnone : ¬ (Match.invoke f m none).result ≠ none := by simpa [Match.result] using hm
  rw [matches_, if_neg hnone, hn fuel hf, Run.ok_bind]
  split_ifs with hr <;> simp [hr]

/-- The call comes last. -/
theorem Reads.invoke {f : τ} (h : Reads P m w s out calls) (hm : m.result = none) :
    Reads P (invoke f m none) w s (out.map fun m => .invoke f m m.result)
      (calls ++ out.calls fun m => if m.result = some true then [(f, m)] else []) := by
  have hlift := Reads.lift (fun m => Match.invoke f m m.result)
    (fun m => if m.result = some true then [(f, m)] else [])
    (fun {m c m' b calls} ht hr => by simpa only [hr] using ht.invoke hr)
    (fun m => by simp [Match.result]) (fun {m} hr => by simp [hr]) hm h
  rwa [hm] at hlift

theorem Turn.loadOnDemand {k : κ} {item : Option (Match κ σ τ)}
    (h : Turn P (item.getD (P.createItem k)) c m' b calls) :
    Turn P (loadOnDemand k item none) c (loadOnDemand k (some m') none) b calls := by
  obtain ⟨n, hn⟩ := h
  refine .of_succ n fun fuel hf => ?_
  rw [matches_, hn fuel hf, Run.ok_bind]
  rfl

theorem Reads.loadOnDemand {k : κ} (h : Reads P (P.createItem k) (c :: w) s out calls) :
    Reads P (loadOnDemand k none none) (c :: w) s (out.map fun m => .loadOnDemand k (some m) none)
      calls := by
  have hlift : ∀ {m : Match κ σ τ} {w s out calls}, Reads P m w s out calls → m.result = none →
      Reads P (Match.loadOnDemand k (some m) none) w s
        (out.map fun m => .loadOnDemand k (some m) none) calls := by
    intro m w s out calls h hm
    have hcalls : out.calls (fun _ => ([] : List (τ × Match κ σ τ))) = [] := by cases out <;> rfl
    have hlift := Reads.lift (fun m => Match.loadOnDemand k (some m) none) (fun _ => [])
      (fun {m c m' b calls} ht _ => by
        simpa using @Turn.loadOnDemand _ _ _ _ P m' c b calls k (some m) ht)
      (fun _ => rfl) (fun _ => rfl) hm h
    rwa [hcalls, List.append_nil] at hlift
  cases h with
  | taken h hr hw => exact .taken h.loadOnDemand hr (hlift hw hr)
  | done h hr => exact .done h.loadOnDemand hr
  | late h hr => exact .late h.loadOnDemand hr
  | failed h hr => exact .failed h.loadOnDemand hr
  | stalled h hr hw => exact .stalled h.loadOnDemand hr (hlift hw hr)

/-! ### Options -/

theorem Turn.optional (h : Turn P m c m' b calls) :
    Turn P (optional m none) c (optional m' (m'.result.map fun _ => true)) b calls := by
  obtain ⟨n, hn⟩ := h
  refine .of_succ n fun fuel hf => ?_
  rw [matches_, hn fuel hf, Run.ok_bind]
  cases hr : m'.result <;> simp [setResult, hr]

/-- What an option comes to. -/
def Outcome.optional : Outcome κ σ τ → Outcome κ σ τ
  | .done m rest => .done (.optional m (some true)) rest
  | .failed m rest => .done (.optional m (some true)) rest
  | .ended m => .ended (.optional m none)

theorem Reads.optional (h : Reads P m w s out calls) :
    Reads P (optional m none) w s out.optional calls := by
  induction h with
  | ended hr => exact .ended (by simp [result, hr])
  | taken h hr _ ih =>
    have ht := h.optional
    rw [hr] at ht
    exact .taken ht (by simp [result, hr]) ih
  | done h hr =>
    have ht := h.optional
    rw [hr] at ht
    exact .done ht rfl
  | late h hr =>
    have ht := h.optional
    rw [hr] at ht
    exact .late ht rfl
  | failed h hr =>
    have ht := h.optional
    rw [hr] at ht
    exact .late ht rfl
  | stalled h hr _ ih =>
    have ht := h.optional
    rw [hr] at ht
    exact .stalled ht (by simp [result, hr]) ih

/-! ### Captures -/

theorem Turn.capture {v : BString} (h : Turn P m c m' b calls) (hm : m.result = none) :
    Turn P (capture (fun _ => true) v m none) c
      (capture (fun _ => true) (if b then v ++ c else v) m' m'.result) b calls := by
  obtain ⟨n, hn⟩ := h
  refine .of_succ n fun fuel hf => ?_
  have hnone : ¬ (Match.capture (fun _ => true) v m none).result ≠ none := by
    simpa [Match.result] using hm
  rw [matches_, if_neg hnone, hn fuel hf, Run.ok_bind]
  cases hr : m'.result <;> simp [hr]

/-- The value of a capture is what has been taken of the text. -/
theorem Reads.capture (h : Reads P m w s out calls) (hm : m.result = none) : ∀ {v taken : BString},
    w.flatten = taken ++ out.rest.flatten →
    Reads P (capture (fun _ => true) v m none) w s
      (out.map fun m => .capture (fun _ => true) (v ++ taken) m m.result) calls := by
  induction h with
  | ended hr =>
    intro v taken ht
    obtain rfl : taken = [] := (List.append_eq_nil_iff.mp ht.symm).1
    rw [List.append_nil]
    simpa only [Outcome.map, hr] using Reads.ended (by simp [result, hr])
  | @taken m m' c w s out calls calls' h hr hw ih =>
    intro v taken ht
    obtain ⟨pre, hpre⟩ := hw.rest_suffix
    have htaken : taken = c ++ pre.flatten := by
      rw [← hpre, List.flatten_cons, List.flatten_append, ← List.append_assoc] at ht
      exact (List.append_cancel_right ht).symm
    have hturn := h.capture (v := v) hm
    rw [if_pos rfl, hr] at hturn
    have hsplit : w.flatten = pre.flatten ++ out.rest.flatten := by rw [← hpre, List.flatten_append]
    have hw' := ih hr (v := v ++ c) hsplit
    rw [List.append_assoc, ← htaken] at hw'
    exact .taken hturn (by simp [result, hr]) hw'
  | @done m m' c w calls h hr =>
    intro v taken ht
    obtain rfl : c = taken := List.append_cancel_right ht
    exact .done (h.capture hm) (by simp [result, hr])
  | @late m m' c w calls h hr =>
    intro v taken ht
    obtain rfl : taken = [] := List.append_left_eq_self.mp ht.symm
    have hturn := h.capture (v := v) hm
    rw [if_neg Bool.false_ne_true] at hturn
    rw [List.append_nil]
    exact .late hturn (by simp [result, hr])
  | @failed m m' c w calls h hr =>
    intro v taken ht
    obtain rfl : taken = [] := List.append_left_eq_self.mp ht.symm
    have hturn := h.capture (v := v) hm
    rw [if_neg Bool.false_ne_true] at hturn
    rw [List.append_nil]
    exact .failed hturn (by simp [result, hr])
  | @stalled m m' c w s out calls calls' h hr hw ih =>
    intro v taken ht
    have hturn := h.capture (v := v) hm
    rw [if_neg Bool.false_ne_true, hr] at hturn
    exact .stalled hturn (by simp [result, hr]) (ih hr ht)

/-! ### Objects -/

theorem Turn.object {self self' : σ} (h : Turn P m c m' b calls) (hm : m.result = none)
    (hself : calls.foldlM (fun self call => P.onsuccess call.1 call.2 self) self = .ok self')
    (hsuccess : P.success self' = true) :
    Turn P (object self m none) c (object self' m' m'.result) b [] := by
  obtain ⟨n, hn⟩ := h
  refine .of_succ n fun fuel hf => ?_
  have hnone : ¬ (Match.object self m none).result ≠ none := by simpa [Match.result] using hm
  rw [matches_, if_neg hnone, hn fuel hf, Run.ok_bind]
  cases hr : m'.result <;> simp [hself, hsuccess, hr]

theorem foldlM_append_ok {α β : Type} {f : β → α → Except φ β} {xs ys : List α} {b b'' : β}
    (h : (xs ++ ys).foldlM f b = .ok b'') :
    ∃ b', xs.foldlM f b = .ok b' ∧ ys.foldlM f b' = .ok b'' := by
  rw [List.foldlM_append] at h
  cases hx : xs.foldlM f b with
  | error e =>
    rw [hx] at h
    cases h
  | ok b' =>
    rw [hx] at h
    exact ⟨b', rfl, h⟩

/-- An object hears the calls and makes none. -/
theorem Reads.object (hsuccess : ∀ self, P.success self = true) (h : Reads P m w s out calls)
    (hm : m.result = none) :
    ∀ {self self' : σ},
      calls.foldlM (fun self call => P.onsuccess call.1 call.2 self) self = .ok self' →
      Reads P (object self m none) w s (out.map fun m => .object self' m m.result) [] := by
  induction h with
  | ended hr =>
    intro self self' hself
    obtain rfl := Except.ok.inj hself
    simpa only [Outcome.map, hr] using Reads.ended (by simp [result, hr])
  | taken h hr hw ih =>
    intro self self'' hself
    obtain ⟨self', h1, h2⟩ := foldlM_append_ok hself
    have hturn := h.object hm h1 (hsuccess _)
    rw [hr] at hturn
    exact .taken hturn (by simp [result, hr]) (ih hr h2)
  | done h hr => exact fun hself => .done (h.object hm hself (hsuccess _)) (by simp [result, hr])
  | late h hr => exact fun hself => .late (h.object hm hself (hsuccess _)) (by simp [result, hr])
  | failed h hr =>
    exact fun hself => .failed (h.object hm hself (hsuccess _)) (by simp [result, hr])
  | stalled h hr hw ih =>
    intro self self'' hself
    obtain ⟨self', h1, h2⟩ := foldlM_append_ok hself
    have hturn := h.object hm h1 (hsuccess _)
    rw [hr] at hturn
    exact .stalled hturn (by simp [result, hr]) (ih hr h2)

/-! ### Alternatives -/

section

variable {before inputs ms : List (Match κ σ τ)} {item : Option ℕ} {matched matched' : Bool}

variable (P) in
/-- What the loop of an `Or` comes to from an input on, with enough fuel. -/
def Tries (c : BString) (before : List (Match κ σ τ)) (matched : Bool)
    (inputs ms : List (Match κ σ τ)) (matched' : Bool)
    (item : Option ℕ) (calls : List (τ × Match κ σ τ)) : Prop :=
  ∃ n, ∀ fuel, n ≤ fuel → orLoop (matches_ P fuel · c) before matched inputs =
    .ok (ms, matched', item, calls)

theorem Tries.nil : Tries P c before matched [] before matched none [] := ⟨0, fun _ _ => rfl⟩

/-- An input that has failed before is passed over. -/
theorem Tries.failed (hm : m.result = some false)
    (h : Tries P c (before ++ [m]) matched inputs ms matched' item calls) :
    Tries P c before matched (m :: inputs) ms matched' item calls := by
  obtain ⟨n, hn⟩ := h
  exact ⟨n, fun fuel hf => by rw [orLoop_failed before hm, hn fuel hf]⟩

theorem Tries.more (h : Turn P m c m' b calls) (hm : m.result = none) (hm' : m'.result ≠ some true)
    (hnext : Tries P c (before ++ [m']) (matched || b) inputs ms matched' item calls') :
    Tries P c before matched (m :: inputs) ms matched' item (calls ++ calls') := by
  obtain ⟨n, hn⟩ := h
  obtain ⟨n', hn'⟩ := hnext
  refine ⟨max n n', fun fuel hf => ?_⟩
  rw [orLoop, hm]
  simp only [hn fuel (Nat.max_le.mp hf).1, hn' fuel (Nat.max_le.mp hf).2, Run.ok_bind,
    hm', if_false]
  rfl

theorem Tries.found (h : Turn P m c m' b calls) (hm : m.result = none)
    (hm' : m'.result = some true) :
    Tries P c before matched (m :: inputs) (before ++ m' :: inputs) (matched || b)
      (some before.length) calls := by
  obtain ⟨n, hn⟩ := h
  exact ⟨n, fun fuel hf => orLoop_found before hm (hn fuel hf) hm'⟩

theorem Turn.or_found {i : ℕ} (h : Tries P c [] false inputs ms b (some i) calls) :
    Turn P (or inputs none none) c (or ms (some i) (some true)) b calls := by
  obtain ⟨n, hn⟩ := h
  exact .of_succ n fun fuel hf => matches_or_found fuel (hn fuel hf)

theorem Turn.or_none (h : Tries P c [] false inputs ms b none calls) :
    Turn P (or inputs none none) c (or ms none (if b then none else some false)) b calls := by
  obtain ⟨n, hn⟩ := h
  exact .of_succ n fun fuel hf => matches_or_none fuel (hn fuel hf)

end

/-! ### Sequences -/

section

variable {k : Match κ σ τ} {before after : List (Match κ σ τ)}

/-- A sequence comes to what its loop comes to. -/
theorem andLoop_of_turn {inputs : List (Match κ σ τ)} {i : ℕ}
    (h : Turn P (and inputs i none) c k b calls) :
    ∃ n, ∀ fuel, n ≤ fuel → andLoop (matches_ P fuel · c) fuel inputs i = .ok (k, b, calls) := by
  obtain ⟨n, hn⟩ := h
  refine ⟨n, fun fuel hf => ?_⟩
  have hrun := hn (fuel + 1) (Nat.le_succ_of_le hf)
  rwa [matches_, if_neg nofun] at hrun

/-- One turn of the loop, with fuel for the next ones. -/
theorem Turn.and_of_loop (h : Turn P m c m' b calls) {calls' : List (τ × Match κ σ τ)}
    {b' : Bool} {n : ℕ}
    (hloop : ∀ fuel, n ≤ fuel → matches_ P (fuel + 1) m c = .ok (m', b, calls) →
      andLoop (matches_ P (fuel + 1) · c) (fuel + 1) (before ++ m :: after) before.length =
        .ok (k, b', calls')) :
    Turn P (and (before ++ m :: after) before.length none) c k b' calls' := by
  obtain ⟨n', hn'⟩ := h
  refine .of_succ (max n n' + 1) fun fuel hf => ?_
  obtain ⟨fuel, rfl⟩ : ∃ j, fuel = j + 1 := ⟨fuel - 1, by omega⟩
  rw [matches_, if_neg nofun]
  exact hloop fuel (by omega) (hn' (fuel + 1) (by omega))

theorem getElem?_middle : (before ++ m :: after)[before.length]? = some m := by simp

theorem set_middle : (before ++ m :: after).set before.length m' = before ++ m' :: after := by simp

theorem Turn.and_more (h : Turn P m c m' true calls) (hr : m'.result = none) :
    Turn P (and (before ++ m :: after) before.length none) c
      (and (before ++ m' :: after) before.length none) true calls := by
  refine h.and_of_loop (n := 0) fun fuel _ hrun => ?_
  rw [andLoop_more fuel getElem?_middle hrun hr, set_middle]

theorem Turn.and_failed (h : Turn P m c m' b calls) (hr : m'.result = some false) :
    Turn P (and (before ++ m :: after) before.length none) c
      (and (before ++ m' :: after) before.length (some false)) false calls := by
  refine h.and_of_loop (n := 0) fun fuel _ hrun => ?_
  rw [andLoop_failed fuel getElem?_middle hrun hr, set_middle]

theorem Turn.and_last (h : Turn P m c m' b calls) (hr : m'.result = some true) :
    Turn P (and (before ++ [m]) before.length none) c
      (and (before ++ [m']) (before.length + 1) (some true)) b calls := by
  refine h.and_of_loop (n := 0) fun fuel _ hrun => ?_
  rw [andLoop_last fuel getElem?_middle hrun hr (by simp), set_middle]

theorem Turn.and_taken (ha : after ≠ []) (h : Turn P m c m' true calls)
    (hr : m'.result = some true) :
    Turn P (and (before ++ m :: after) before.length none) c
      (and (before ++ m' :: after) (before.length + 1) none) true calls := by
  have hlast : before.length + 1 ≠ ((before ++ m :: after).set before.length m').length := by
    have := List.length_pos_iff.mpr ha
    simp
    omega
  refine h.and_of_loop (n := 0) fun fuel _ hrun => ?_
  rw [andLoop_taken fuel getElem?_middle hrun hr hlast, set_middle]

/-- A loop that goes on, with the fuel of a turn less. -/
theorem goOn_loop {inputs : List (Match κ σ τ)} {i n fuel : ℕ} (hn : n ≤ fuel)
    (h : ∀ fuel, n ≤ fuel → andLoop (matches_ P fuel · c) fuel inputs i = .ok (k, b, calls'))
    (calls : List (τ × Match κ σ τ)) :
    goOn calls (andLoop (matches_ P (fuel + 1) · c) fuel inputs i) =
      .ok (k, b, calls ++ calls') := by
  have hloop := (andLoop_mono (fun m => matches_mono c (Nat.le_succ fuel) m) le_rfl inputs i).ok
    (h fuel hn)
  rw [goOn, hloop]
  rfl

theorem Turn.and_next (ha : after ≠ []) (h : Turn P m c m' false calls) (hr : m'.result = some true)
    (hnext : Turn P (and (before ++ m' :: after) (before.length + 1) none) c k b calls') :
    Turn P (and (before ++ m :: after) before.length none) c k b (calls ++ calls') := by
  have hlast : before.length + 1 ≠ ((before ++ m :: after).set before.length m').length := by
    have := List.length_pos_iff.mpr ha
    simp
    omega
  obtain ⟨n, hn⟩ := andLoop_of_turn hnext
  refine h.and_of_loop (n := n) fun fuel hf hrun => ?_
  rw [andLoop_next fuel getElem?_middle hrun hr hlast, set_middle]
  exact goOn_loop hf hn calls

theorem Turn.and_again (h : Turn P m c m' false calls) (hr : m'.result = none)
    (hnext : Turn P (and (before ++ m' :: after) before.length none) c k b calls') :
    Turn P (and (before ++ m :: after) before.length none) c k b (calls ++ calls') := by
  obtain ⟨n, hn⟩ := andLoop_of_turn hnext
  refine h.and_of_loop (n := n) fun fuel hf hrun => ?_
  rw [andLoop_again fuel getElem?_middle hrun hr, set_middle]
  exact goOn_loop hf hn calls

/-- A matcher that does with the first character what another does, after some
calls. -/
theorem Reads.of_first (h : Reads P m (c :: w) s out calls')
    (hlike : ∀ {m' b calls'}, Turn P m c m' b calls' → Turn P k c m' b (calls ++ calls')) :
    Reads P k (c :: w) s out (calls ++ calls') := by
  cases h with
  | taken h hr hw =>
    rw [← List.append_assoc]
    exact .taken (hlike h) hr hw
  | done h hr => exact .done (hlike h) hr
  | late h hr => exact .late (hlike h) hr
  | failed h hr => exact .failed (hlike h) hr
  | stalled h hr hw =>
    rw [← List.append_assoc]
    exact .stalled (hlike h) hr hw

/-- A sequence comes to what its part comes to, and what comes after. -/
theorem Reads.and {out' : Outcome κ σ τ} (h : Reads P m w s out calls)
    (hdone : ∀ m' rest, out = .done m' rest →
      if after = [] then out' = .done (and (before ++ [m']) (before.length + 1) (some true)) rest ∧
        calls' = []
      else Reads P (and (before ++ m' :: after) (before.length + 1) none) rest false out' calls')
    (hfailed : ∀ m' rest, out = .failed m' rest →
      out' = .failed (and (before ++ m' :: after) before.length (some false)) rest ∧ calls' = [])
    (hended : ∀ m', out = .ended m' →
      out' = .ended (and (before ++ m' :: after) before.length none) ∧ calls' = []) :
    Reads P (and (before ++ m :: after) before.length none) w false out' (calls ++ calls') := by
  induction h with
  | ended hr =>
    obtain ⟨rfl, rfl⟩ := hended _ rfl
    exact .ended rfl
  | taken h hr hw ih =>
    rw [List.append_assoc]
    exact .taken (h.and_more hr) rfl (ih hdone hfailed hended)
  | done h hr =>
    have hnext := hdone _ _ rfl
    split_ifs at hnext with ha
    · subst ha
      obtain ⟨rfl, rfl⟩ := hnext
      rw [List.append_nil]
      exact .done (h.and_last hr) rfl
    · exact .taken (h.and_taken ha hr) rfl hnext
  | late h hr =>
    have hnext := hdone _ _ rfl
    split_ifs at hnext with ha
    · subst ha
      obtain ⟨rfl, rfl⟩ := hnext
      rw [List.append_nil]
      exact .late (h.and_last hr) rfl
    · exact hnext.of_first fun ht => h.and_next ha hr ht
  | failed h hr =>
    obtain ⟨rfl, rfl⟩ := hfailed _ _ rfl
    rw [List.append_nil]
    exact .failed (h.and_failed hr) rfl
  | stalled h hr hw ih =>
    rw [List.append_assoc]
    exact (ih hdone hfailed hended).of_first fun ht => h.and_again hr ht

variable {rest : List BString}

theorem Reads.and_last (h : Reads P m w s (.done m' rest) calls) :
    Reads P (Match.and (before ++ [m]) before.length none) w false
      (.done (Match.and (before ++ [m']) (before.length + 1) (some true)) rest) calls := by
  rw [← List.append_nil calls]
  exact h.and (fun m' rest heq => by cases heq; simp) nofun nofun

theorem Reads.and_next (ha : after ≠ []) (h : Reads P m w s (.done m' rest) calls)
    (hrest : Reads P (Match.and (before ++ m' :: after) (before.length + 1) none)
      rest false out calls') :
    Reads P (Match.and (before ++ m :: after) before.length none) w false out (calls ++ calls') :=
  h.and (fun m' rest heq => by cases heq; rwa [if_neg ha]) nofun nofun

theorem Reads.and_failed (h : Reads P m w s (.failed m' rest) calls) :
    Reads P (Match.and (before ++ m :: after) before.length none) w false
      (.failed (Match.and (before ++ m' :: after) before.length (some false)) rest) calls := by
  rw [← List.append_nil calls]
  exact h.and nofun (fun m' rest heq => by cases heq; exact ⟨rfl, rfl⟩) nofun

theorem Reads.and_ended (h : Reads P m w s (.ended m') calls) :
    Reads P (Match.and (before ++ m :: after) before.length none) w false
      (.ended (Match.and (before ++ m' :: after) before.length none)) calls := by
  rw [← List.append_nil calls]
  exact h.and nofun nofun fun m' heq => by cases heq; exact ⟨rfl, rfl⟩

end

end Match

end BeeFish
