/-
# Matchers

The matchers of parser/ are objects that are pushed a text character by
character. Each says whether it has taken the character (`matched`) and,
apart from that, whether it has come to a result; `eof` asks for the result at
the end of the text. A `Match` is such an object with the objects it owns.

`onsuccess` of an `Invoke` calls back into the object that has set the matcher
up; the calls are handed up to the nearest such `object`, a `Match` whose class
has fields of its own and overrides `success()`. What `LoadOnDemand` creates
when the first character comes depends on the class (`Program`).

`And` pushes a character again while no input takes it, and the matchers can be
nested without an end, so `matches` and `eof` have fuel.

Key definitions: `Match`, `Match.matches`, `Match.eof`, `Parser`.
-/
import BeeFish.Lib.Run
import BeeFish.Tokenise

namespace BeeFish

/-! ### The objects -/

/-- A matcher; `result` is its `_result`. -/
inductive Match (κ σ τ : Type) where
  /-- `Character`, any one if none is given -/
  | character (characterToMatch : Option BString) (result : Option Bool)
  | range (minimum maximum : BString) (result : Option Bool)
  /-- `Word` with what is left of the word; `CIWord` lowers the characters. -/
  | word (lower : BString → BString) (index : BString) (result : Option Bool)
  | and (inputs : List (Match κ σ τ)) (iterator : ℕ) (result : Option Bool)
  | or (inputs : List (Match κ σ τ)) (item : Option ℕ) (result : Option Bool)
  /-- `OrderOfPrecedence` of items without a function, with the group of each input -/
  | orderOfPrecedence (groups : List ℕ) (inputs : List (Match κ σ τ)) (item : Option ℕ)
      (result : Option Bool)
  | not (match_ : Match κ σ τ) (result : Option Bool)
  | optional (match_ : Match κ σ τ) (result : Option Bool)
  /-- `Repeat`, whose items start as `create` -/
  | repeated (create : Match κ σ τ) (item : Option (Match κ σ τ)) (minimum maximum matchedCount : ℕ)
      (result : Option Bool)
  /-- `Capture`; a class that overrides `success()` can look at the value. -/
  | capture (success : BString → Bool) (value : BString) (match_ : Match κ σ τ)
      (result : Option Bool)
  | invoke (onsuccess : τ) (match_ : Match κ σ τ) (result : Option Bool)
  | loadOnDemand (parent : κ) (match_ : Option (Match κ σ τ)) (result : Option Bool)
  /-- A class of its own -/
  | object (self : σ) (match_ : Match κ σ τ) (result : Option Bool)

/-- What the classes of a grammar add: what is loaded on demand, the calls of
`onsuccess` with the matcher they are given, and `success()`. -/
structure Program (κ σ τ φ : Type) where
  createItem : κ → Match κ σ τ
  onsuccess : τ → Match κ σ τ → σ → Except φ σ
  success : σ → Bool

variable {κ σ τ φ : Type}

namespace Match

/-- `result()` -/
def result : Match κ σ τ → Option Bool
  | character _ result => result
  | range _ _ result => result
  | word _ _ result => result
  | and _ _ result => result
  | or _ item result => if result ≠ none then result else if item.isSome then some true else none
  | orderOfPrecedence _ _ item result =>
    if result ≠ none then result else if item.isSome then some true else none
  | not m result => if result ≠ none then result else m.result.map Bool.not
  | optional m result => if result ≠ none then result else m.result
  | repeated _ item _ _ _ result =>
    if result ≠ none then result else
      match item with
      | some m => m.result
      | none => none
  | capture _ _ m result => if result ≠ none then result else m.result
  | invoke _ m result => if result ≠ none then result else m.result
  | loadOnDemand _ item result =>
    if result ≠ none then result else
      match item with
      | some m => m.result
      | none => none
  | object _ m result => if result ≠ none then result else m.result

mutual

/-- `value()` -/
def value : Match κ σ τ → BString
  | or inputs (some i) _ => valueAt inputs i
  | orderOfPrecedence _ inputs (some i) _ => valueAt inputs i
  | not m _ => m.value
  | optional m _ => m.value
  | capture _ value _ _ => value
  | invoke _ m _ => m.value
  | loadOnDemand _ (some m) _ => m.value
  | object _ m _ => m.value
  | _ => []

def valueAt : List (Match κ σ τ) → ℕ → BString
  | [], _ => []
  | m :: _, 0 => m.value
  | _ :: ms, i + 1 => valueAt ms i

end

/-- `setResult` does not change a result. -/
def setResult (result : Option Bool) (newResult : Bool) : Option Bool :=
  if result = none then some newResult else result

/-- `Word::matchChar`: what is left of the word, and whether all bytes of the
character have been found. -/
def matchChar : BString → BString → BString × Bool
  | index, [] => (index, true)
  | [], _ => ([], false)
  | w :: index, c :: rest =>
    if c ≠ w then (w :: index, false)
    else if index = [] then ([], rest = [])
    else matchChar index rest

theorem matchChar_spec : ∀ {index bytes : BString}, index ≠ [] →
    (bytes <+: index → matchChar index bytes = (index.drop bytes.length, true)) ∧
      (¬ bytes <+: index → (matchChar index bytes).2 = false)
  | [], _, h0 => absurd rfl h0
  | w :: index, [], _ => ⟨fun _ => rfl, fun h => absurd List.nil_prefix h⟩
  | w :: index, b :: bytes, _ => by
    rw [matchChar, List.cons_prefix_cons]
    by_cases hb : b = w
    · subst hb
      by_cases hi : index = []
      · subst hi
        simp
      · obtain ⟨h1, h2⟩ := matchChar_spec hi
        simpa [hi] using ⟨h1, h2⟩
    · simp [hb]

/-! ### A character -/

/-- What `match` comes to: the matcher, whether it has taken the character, and
the calls of `onsuccess`. -/
abbrev Matched (κ σ τ : Type) := Match κ σ τ × Bool × List (τ × Match κ σ τ)

/-- The loop of `And::match`. -/
def andLoop (matches_ : Match κ σ τ → Run φ (Matched κ σ τ)) : ℕ → List (Match κ σ τ) → ℕ →
    Run φ (Matched κ σ τ)
  | 0, _, _ => .outOfFuel
  | fuel + 1, inputs, iterator =>
    match inputs[iterator]? with
    | none => return (and inputs iterator (some false), false, [])
    | some item => do
      let (item, matched, calls) ← matches_ item
      let inputs := inputs.set iterator item
      match item.result with
      | some true =>
        if iterator + 1 = inputs.length then return (and inputs (iterator + 1) (some true),
          matched, calls)
        else if matched then return (and inputs (iterator + 1) none, true, calls)
        else
          let (m, matched, calls') ← andLoop matches_ fuel inputs (iterator + 1)
          return (m, matched, calls ++ calls')
      | some false => return (and inputs iterator (some false), false, calls)
      | none =>
        if matched then return (and inputs iterator none, true, calls)
        else
          let (m, matched, calls') ← andLoop matches_ fuel inputs iterator
          return (m, matched, calls ++ calls')

/-- The loop of `Or::match` with the inputs before: the inputs, whether one of
them has matched and the one that has succeeded. -/
def orLoop (matches_ : Match κ σ τ → Run φ (Matched κ σ τ)) (before : List (Match κ σ τ))
    (matched : Bool) :
    List (Match κ σ τ) → Run φ (List (Match κ σ τ) × Bool × Option ℕ × List (τ × Match κ σ τ))
  | [] => return (before, matched, none, [])
  | item :: inputs =>
    match item.result with
    | some true => return (before ++ item :: inputs, matched, some before.length, [])
    | some false => orLoop matches_ (before ++ [item]) matched inputs
    | none => do
      let (item, matched', calls) ← matches_ item
      if item.result = some true then
        return (before ++ item :: inputs, matched || matched', some before.length, calls)
      else
        let (inputs, matched, found, calls') ← orLoop matches_ (before ++ [item])
          (matched || matched') inputs
        return (inputs, matched, found, calls ++ calls')

/-- `OrderOfPrecedence::confirm` of an input: all inputs of the groups before its
own have failed. -/
def confirm (groups : List ℕ) (inputs : List (Match κ σ τ)) (i : ℕ) : Bool :=
  (groups.zip inputs).all fun (group, input) => decide (groups.getD i 0 ≤ group) ||
    input.result == some false

/-- The loop of `Or::match` where an input that has succeeded has to be
confirmed. -/
def precedenceLoop (matches_ : Match κ σ τ → Run φ (Matched κ σ τ)) (groups : List ℕ)
    (before : List (Match κ σ τ)) (matched : Bool) :
    List (Match κ σ τ) → Run φ (List (Match κ σ τ) × Bool × Option ℕ × List (τ × Match κ σ τ))
  | [] => return (before, matched, none, [])
  | item :: inputs =>
    if item.result = some false then precedenceLoop matches_ groups (before ++ [item])
      matched inputs
    else do
      let (item, matched', calls) ← if item.result = none then matches_ item
        else pure (item, false, [])
      if item.result = some true ∧ confirm groups (before ++ item :: inputs) before.length then
        return (before ++ item :: inputs, matched || matched', some before.length, calls)
      else
        let (inputs, matched, found, calls') ← precedenceLoop matches_ groups (before ++ [item])
          (matched || matched') inputs
        return (inputs, matched, found, calls ++ calls')

/-- `match` -/
def matches_ (P : Program κ σ τ φ) : ℕ → Match κ σ τ → BString → Run φ (Matched κ σ τ)
  | 0, _, _ => .outOfFuel
  | _ + 1, character characterToMatch result, c =>
    if result ≠ none then return (character characterToMatch result, false, [])
    else
      let matched := characterToMatch.all (· == c)
      return (character characterToMatch (some matched), matched, [])
  | _ + 1, range minimum maximum result, c =>
    let matched := decide (minimum ≤ c) && decide (c ≤ maximum)
    return (range minimum maximum (setResult result matched), matched, [])
  | _ + 1, word lower index result, c =>
    if result ≠ none then return (word lower index result, false, [])
    else
      let (index, matched) := matchChar index (lower c)
      return (word lower index (if matched then (if index = [] then some true else none)
        else some false), matched, [])
  | fuel + 1, and inputs iterator result, c =>
    if result ≠ none then return (and inputs iterator result, false, [])
    else andLoop (matches_ P fuel · c) fuel inputs iterator
  | fuel + 1, or inputs item result, c => do
    if (or inputs item result).result ≠ none then return (or inputs item result, false, [])
    else
      let (inputs, matched, found, calls) ← orLoop (matches_ P fuel · c) [] false inputs
      if found.isSome then return (or inputs found (some true), matched, calls)
      else if matched then return (or inputs none none, true, calls)
      else return (or inputs none (some false), false, calls)
  | fuel + 1, orderOfPrecedence groups inputs item result, c => do
    if (orderOfPrecedence groups inputs item result).result ≠ none then
      return (orderOfPrecedence groups inputs item result, false, [])
    else
      let (inputs, matched, found, calls) ← precedenceLoop (matches_ P fuel · c) groups []
        false inputs
      if found.isSome then return (orderOfPrecedence groups inputs found (some true),
        matched, calls)
      else if matched then return (orderOfPrecedence groups inputs none none, true, calls)
      else return (orderOfPrecedence groups inputs none (some false), false, calls)
  | fuel + 1, not m result, c =>
    match result with
    | some result => return (not m (some result), result, [])
    | none => do
      let (m, matched, calls) ← matches_ P fuel m c
      if !matched || m.result == some false then return (not m (some true), true, calls)
      else if m.result == some true then return (not m (some false), false, calls)
      else return (not m none, true, calls)
  | fuel + 1, optional m result, c => do
    let (m, matched, calls) ← matches_ P fuel m c
    return (optional m (if m.result ≠ none then setResult result true else result), matched, calls)
  | fuel + 1, repeated create item minimum maximum matchedCount result, c =>
    if result ≠ none then return (repeated create item minimum maximum matchedCount result, false,
      [])
    else do
      let (item, matched, calls) ← matches_ P fuel (item.getD create) c
      match item.result with
      | some true =>
        let matchedCount := matchedCount + 1
        let result :=
          if 0 < maximum then
            if matchedCount = maximum then some true else if maximum < matchedCount then some false
              else none
          else none
        return (repeated create (some create) minimum maximum matchedCount result, matched, calls)
      | some false =>
        return (repeated create (some item) minimum maximum matchedCount
          (some (decide (minimum ≤ matchedCount))),
          false, calls)
      | none =>
        return (repeated create (some item) minimum maximum matchedCount none, matched, calls)
  | fuel + 1, capture success value m result, c =>
    if (capture success value m result).result ≠
      none then return (capture success value m result, false, [])
    else do
      let (m, matched, calls) ← matches_ P fuel m c
      let value := if matched then value ++ c else value
      return (capture success value m (m.result.map (· && success value)), matched, calls)
  | fuel + 1, invoke onsuccess m result, c =>
    if (invoke onsuccess m result).result ≠ none then return (invoke onsuccess m result, false, [])
    else do
      let (m, matched, calls) ← matches_ P fuel m c
      return (invoke onsuccess m m.result, matched, if m.result = some true then calls ++
        [(onsuccess, m)] else calls)
  | fuel + 1, loadOnDemand parent item result, c => do
    let (m, matched, calls) ← matches_ P fuel (item.getD (P.createItem parent)) c
    return (loadOnDemand parent (some m) result, matched, calls)
  | fuel + 1, object self m result, c =>
    if (object self m result).result ≠ none then return (object self m result, false, [])
    else do
      let (m, matched, calls) ← matches_ P fuel m c
      let self ← .ofExcept (calls.foldlM (fun self call => P.onsuccess call.1 call.2 self) self)
      return (object self m (m.result.map (· && P.success self)), matched, [])

/-! ### The end of the text -/

/-- The loop of `And::eof`: the inputs, and whether all have succeeded. -/
def andEof (eof : Match κ σ τ → Run φ (Match κ σ τ × List (τ × Match κ σ τ))) :
    List (Match κ σ τ) → Run φ (List (Match κ σ τ) × Bool × List (τ × Match κ σ τ))
  | [] => return ([], true, [])
  | item :: inputs => do
    let (item, calls) ← eof item
    if item.result = some false then return (item :: inputs, false, calls)
    else
      let (inputs, succeeded, calls') ← andEof eof inputs
      return (item :: inputs, succeeded, calls ++ calls')

/-- The loop of `Or::eof` with the inputs before. -/
def orEof (eof : Match κ σ τ → Run φ (Match κ σ τ × List (τ × Match κ σ τ)))
    (before : List (Match κ σ τ)) :
    List (Match κ σ τ) → Run φ (List (Match κ σ τ) × Option ℕ × List (τ × Match κ σ τ))
  | [] => return (before, none, [])
  | item :: inputs => do
    let (item, calls) ← eof item
    if item.result = some true then return (before ++ item :: inputs, some before.length, calls)
    else
      let (inputs, found, calls') ← orEof eof (before ++ [item]) inputs
      return (inputs, found, calls ++ calls')

/-- `eof` -/
def eof (P : Program κ σ τ φ) : ℕ → Match κ σ τ → Run φ (Match κ σ τ × List (τ × Match κ σ τ))
  | 0, _ => .outOfFuel
  | _ + 1, character characterToMatch result =>
    return (character characterToMatch (setResult result false), [])
  | _ + 1, range minimum maximum result =>
    return (range minimum maximum (setResult result false), [])
  | _ + 1, word lower index result => return (word lower index (setResult result (index = [])), [])
  | fuel + 1, and inputs iterator result =>
    if result ≠ none then return (and inputs iterator result, [])
    else do
      let (rest, succeeded, calls) ← andEof (eof P fuel) (inputs.drop iterator)
      return (and (inputs.take iterator ++ rest) iterator (some succeeded), calls)
  | fuel + 1, or inputs item result =>
    if (or inputs item result).result ≠ none then return (or inputs item result, [])
    else do
      let (inputs, found, calls) ← orEof (eof P fuel) [] inputs
      return (or inputs found (some found.isSome), calls)
  | fuel + 1, orderOfPrecedence groups inputs item result =>
    if (orderOfPrecedence groups inputs item result).result ≠
      none then return (orderOfPrecedence groups inputs item result, [])
    else do
      let (inputs, found, calls) ← orEof (eof P fuel) [] inputs
      return (orderOfPrecedence groups inputs found (some found.isSome), calls)
  | fuel + 1, not m result =>
    if (not m result).result ≠ none then return (not m result, [])
    else do
      let (m, calls) ← eof P fuel m
      return (not m (some (m.result != some true)), calls)
  | fuel + 1, optional m result => do
    let (m, calls) ← eof P fuel m
    return (optional m (setResult result true), calls)
  | fuel + 1, repeated create item minimum maximum matchedCount result => do
    let (item, matchedCount, calls) ←
      match item with
      | some m =>
        if m.result = none then do
          let (m, calls) ← eof P fuel m
          pure (some m, if m.result = some true then matchedCount + 1 else matchedCount, calls)
        else pure (some m, matchedCount, [])
      | none => pure (none, matchedCount, [])
    let succeeded := decide (minimum ≤ matchedCount) &&
      (decide (matchedCount ≤ maximum) || decide (maximum = 0))
    return (repeated create item minimum maximum matchedCount (setResult result succeeded), calls)
  | fuel + 1, capture success value m result => do
    let (m, calls) ← if m.result = none then eof P fuel m else pure (m, [])
    return (capture success value m (setResult result (m.result == some true && success value)),
      calls)
  | fuel + 1, invoke onsuccess m result => do
    let (m, calls) ← if m.result = none then eof P fuel m else pure (m, [])
    if result ≠ none then return (invoke onsuccess m result, calls)
    else if m.result = some true then return (invoke onsuccess m (some true),
      calls ++ [(onsuccess, m)])
    else return (invoke onsuccess m (some false), calls)
  | fuel + 1, loadOnDemand parent item result =>
    match item with
    | some m => do
      let (m, calls) ← if m.result = none then eof P fuel m else pure (m, [])
      return (loadOnDemand parent (some m) (setResult result (m.result == some true)), calls)
    | none => return (loadOnDemand parent none (setResult result false), [])
  | fuel + 1, object self m result => do
    let (m, calls) ← if m.result = none then eof P fuel m else pure (m, [])
    let self ← .ofExcept (calls.foldlM (fun self call => P.onsuccess call.1 call.2 self) self)
    return (object self m (setResult result (m.result == some true && P.success self)), [])

attribute [grind =] result andLoop orLoop precedenceLoop matches_ andEof orEof eof

/-! ### One turn of a loop -/

section

variable {f : Match κ σ τ → Run φ (Matched κ σ τ)} {inputs : List (Match κ σ τ)} {i : ℕ}
    {m m' : Match κ σ τ} {b matched : Bool}
  {calls : List (τ × Match κ σ τ)}

/-- A loop that goes on after some calls. -/
def goOn (calls : List (τ × Match κ σ τ)) (run : Run φ (Matched κ σ τ)) :
    Run φ (Matched κ σ τ) := do
  let (m, matched, calls') ← run
  return (m, matched, calls ++ calls')

theorem goOn_nil (run : Run φ (Matched κ σ τ)) : goOn [] run = run := Run.bind_ok run

theorem andLoop_more (fuel : ℕ) (hi : inputs[i]? = some m) (hrun : f m = .ok (m', true, calls))
    (hm : m'.result = none) :
    andLoop f (fuel + 1) inputs i = .ok (and (inputs.set i m') i none, true, calls) := by
  rw [andLoop, hi]
  simp only [hrun, Run.ok_bind, hm, if_true]
  rfl

theorem andLoop_again (fuel : ℕ) (hi : inputs[i]? = some m) (hrun : f m = .ok (m', false, calls))
    (hm : m'.result = none) :
    andLoop f (fuel + 1) inputs i = goOn calls (andLoop f fuel (inputs.set i m') i) := by
  rw [andLoop, hi]
  simp only [hrun, Run.ok_bind, hm]
  rfl

theorem andLoop_failed (fuel : ℕ) (hi : inputs[i]? = some m) (hrun : f m = .ok (m', b, calls))
    (hm : m'.result = some false) :
    andLoop f (fuel + 1) inputs i = .ok (and (inputs.set i m') i (some false), false, calls) := by
  rw [andLoop, hi]
  simp only [hrun, Run.ok_bind, hm]
  rfl

theorem andLoop_last (fuel : ℕ) (hi : inputs[i]? = some m) (hrun : f m = .ok (m', b, calls))
    (hm : m'.result = some true)
    (hlast : i + 1 = (inputs.set i m').length) :
    andLoop f (fuel + 1) inputs i = .ok (and (inputs.set i m') (i + 1) (some true), b, calls) := by
  rw [andLoop, hi]
  simp only [hrun, Run.ok_bind, hm, if_pos hlast]
  rfl

theorem andLoop_taken (fuel : ℕ) (hi : inputs[i]? = some m) (hrun : f m = .ok (m', true, calls))
    (hm : m'.result = some true) (hlast : i + 1 ≠ (inputs.set i m').length) :
    andLoop f (fuel + 1) inputs i = .ok (and (inputs.set i m') (i + 1) none, true, calls) := by
  rw [andLoop, hi]
  simp only [hrun, Run.ok_bind, hm, if_neg hlast, if_true]
  rfl

theorem andLoop_next (fuel : ℕ) (hi : inputs[i]? = some m) (hrun : f m = .ok (m', false, calls))
    (hm : m'.result = some true) (hlast : i + 1 ≠ (inputs.set i m').length) :
    andLoop f (fuel + 1) inputs i = goOn calls (andLoop f fuel (inputs.set i m') (i + 1)) := by
  rw [andLoop, hi]
  simp only [hrun, Run.ok_bind, hm, if_neg hlast]
  rfl

theorem orLoop_failed (before : List (Match κ σ τ)) (hm : m.result = some false) :
    orLoop f before matched (m :: inputs) = orLoop f (before ++ [m]) matched inputs := by
  rw [orLoop, hm]

theorem orLoop_more (before : List (Match κ σ τ)) (hm : m.result = none)
    (hrun : f m = .ok (m', b, []))
    (hm' : m'.result ≠ some true) :
    orLoop f before matched (m :: inputs) = orLoop f (before ++ [m']) (matched || b) inputs := by
  rw [orLoop, hm]
  simp only [hrun, Run.ok_bind, hm', if_false]
  exact Run.bind_ok _

theorem orLoop_found (before : List (Match κ σ τ)) (hm : m.result = none)
    (hrun : f m = .ok (m', b, calls))
    (hm' : m'.result = some true) :
    orLoop f before matched (m :: inputs) = .ok (before ++ m' :: inputs, matched || b,
      some before.length, calls) := by
  rw [orLoop, hm]
  simp only [hrun, Run.ok_bind, hm', if_true]
  rfl

end

section

variable {P : Program κ σ τ φ} {c : BString} {inputs ms : List (Match κ σ τ)} {b : Bool}
    {calls : List (τ × Match κ σ τ)}

theorem matches_or_found (n : ℕ) {i : ℕ}
    (hloop : orLoop (matches_ P n · c) [] false inputs = .ok (ms, b, some i, calls)) :
    (or inputs none none).matches_ P (n + 1) c = .ok (or ms (some i) (some true), b, calls) := by
  rw [matches_]
  simp [result, hloop]

theorem matches_or_none (n : ℕ)
    (hloop : orLoop (matches_ P n · c) [] false inputs = .ok (ms, b, none, calls)) :
    (or inputs none none).matches_ P (n + 1) c = .ok
    (or ms none (if b then none else some false), b, calls) := by
  rw [matches_]
  cases b <;> simp [result, hloop]

end

/-! ### More fuel -/

theorem andLoop_mono {f g : Match κ σ τ → Run φ (Matched κ σ τ)} (hfg : ∀ m, (f m).Le (g m)) :
    ∀ {fuel fuel' : ℕ},
    fuel ≤ fuel' → ∀ inputs i, (andLoop f fuel inputs i).Le (andLoop g fuel' inputs i)
  | 0, _, _, _, _ => Run.outOfFuel_le _
  | fuel + 1, fuel' + 1, h, inputs, i => by
    have ih := andLoop_mono hfg (Nat.le_of_succ_le_succ h)
    rw [andLoop, andLoop]
    split
    · exact Run.Le.refl _
    · refine (hfg _).bind fun ⟨item, matched, calls⟩ => ?_
      dsimp only
      split
      · exact .ite (.refl _) (.ite (.refl _) ((ih _ _).bind fun _ => .refl _))
      · exact .refl _
      · exact .ite (.refl _) ((ih _ _).bind fun _ => .refl _)

theorem orLoop_mono {f g : Match κ σ τ → Run φ (Matched κ σ τ)} (hfg : ∀ m, (f m).Le (g m)) :
    ∀ (inputs before : List (Match κ σ τ)) (matched : Bool), (orLoop f before matched inputs).Le
      (orLoop g before matched inputs)
  | [], _, _ => .refl _
  | item :: inputs, before, matched => by
    have ih := orLoop_mono hfg inputs
    rw [orLoop, orLoop]
    split
    · exact .refl _
    · exact ih _ _
    · exact (hfg item).bind fun _ => .ite (.refl _) ((ih _ _).bind fun _ => .refl _)

theorem precedenceLoop_mono {f g : Match κ σ τ → Run φ (Matched κ σ τ)} (hfg : ∀ m, (f m).Le (g m))
    (groups : List ℕ) :
    ∀ (inputs before : List (Match κ σ τ)) (matched : Bool),
      (precedenceLoop f groups before matched inputs).Le
      (precedenceLoop g groups before matched inputs)
  | [], _, _ => .refl _
  | item :: inputs, before, matched => by
    have ih := precedenceLoop_mono hfg groups inputs
    rw [precedenceLoop, precedenceLoop]
    exact .ite (ih _ _)
      (.ite ((hfg item).bind fun _ => .ite (.refl _) ((ih _ _).bind fun _ => .refl _))
      (.ite (.refl _) ((ih _ _).bind fun _ => .refl _)))

variable {P : Program κ σ τ φ}

/-- A matcher that comes to something comes to the same with more fuel. -/
theorem matches_mono (c : BString) : ∀ {fuel fuel' : ℕ}, fuel ≤ fuel' → ∀ m : Match κ σ τ,
    (matches_ P fuel m c).Le (matches_ P fuel' m c)
  | 0, _, _, _ => Run.outOfFuel_le _
  | fuel + 1, fuel' + 1, h, m => by
    have ih := matches_mono c (Nat.le_of_succ_le_succ h)
    cases m with
    | character k result => exact .refl _
    | range lo hi result => exact .refl _
    | word lower index result => exact .refl _
    | and inputs i result => exact .ite (.refl _) (andLoop_mono ih (Nat.le_of_succ_le_succ h) _ _)
    | or inputs item result =>
      exact .ite (.refl _) ((orLoop_mono ih inputs [] false).bind fun _ => .refl _)
    | orderOfPrecedence groups inputs item result =>
      exact .ite (.refl _) ((precedenceLoop_mono ih groups inputs [] false).bind fun _ => .refl _)
    | not m result =>
      cases result with
      | none => exact (ih m).bind fun _ => .refl _
      | some result => exact .refl _
    | optional m result => exact (ih m).bind fun _ => .refl _
    | repeated create item lo hi n result => exact .ite (.refl _) ((ih _).bind fun _ => .refl _)
    | capture success value m result => exact .ite (.refl _) ((ih m).bind fun _ => .refl _)
    | invoke f m result => exact .ite (.refl _) ((ih m).bind fun _ => .refl _)
    | loadOnDemand k item result => exact (ih _).bind fun _ => .refl _
    | object self m result => exact .ite (.refl _) ((ih m).bind fun _ => .refl _)

theorem andEof_mono {f g : Match κ σ τ → Run φ (Match κ σ τ × List (τ × Match κ σ τ))}
    (hfg : ∀ m, (f m).Le (g m)) :
    ∀ inputs : List (Match κ σ τ), (andEof f inputs).Le (andEof g inputs)
  | [] => .refl _
  | item :: inputs => by
    have ih := andEof_mono hfg inputs
    exact (hfg item).bind fun _ => .ite (.refl _) (ih.bind fun _ => .refl _)

theorem orEof_mono {f g : Match κ σ τ → Run φ (Match κ σ τ × List (τ × Match κ σ τ))}
    (hfg : ∀ m, (f m).Le (g m)) :
    ∀ inputs before : List (Match κ σ τ), (orEof f before inputs).Le (orEof g before inputs)
  | [], _ => .refl _
  | item :: inputs, before => by
    have ih := orEof_mono hfg inputs
    exact (hfg item).bind fun _ => .ite (.refl _) ((ih _).bind fun _ => .refl _)

theorem eof_mono : ∀ {fuel fuel' : ℕ}, fuel ≤ fuel' → ∀ m : Match κ σ τ,
    (eof P fuel m).Le (eof P fuel' m)
  | 0, _, _, _ => Run.outOfFuel_le _
  | fuel + 1, fuel' + 1, h, m => by
    have ih := eof_mono (Nat.le_of_succ_le_succ h)
    cases m with
    | character k result => exact .refl _
    | range lo hi result => exact .refl _
    | word lower index result => exact .refl _
    | and inputs i result => exact .ite (.refl _) ((andEof_mono ih _).bind fun _ => .refl _)
    | or inputs item result =>
      exact .ite (.refl _) ((orEof_mono ih inputs []).bind fun _ => .refl _)
    | orderOfPrecedence groups inputs item result =>
      exact .ite (.refl _) ((orEof_mono ih inputs []).bind fun _ => .refl _)
    | not m result => exact .ite (.refl _) ((ih m).bind fun _ => .refl _)
    | optional m result => exact (ih m).bind fun _ => .refl _
    | repeated create item lo hi n result =>
      cases item with
      | none => exact .refl _
      | some m => exact .ite ((ih m).bind fun _ => .refl _) (.refl _)
    | capture success value m result => exact .ite ((ih m).bind fun _ => .refl _) (.refl _)
    | invoke f m result => exact .ite ((ih m).bind fun _ => .refl _) (.refl _)
    | loadOnDemand k item result =>
      cases item with
      | none => exact .refl _
      | some m => exact .ite ((ih m).bind fun _ => .refl _) (.refl _)
    | object self m result => exact .ite ((ih m).bind fun _ => .refl _) (.refl _)
end Match

/-! ### The parser -/

structure Parser (κ σ τ : Type) where
  match_ : Match κ σ τ
  result : Option Bool

namespace Parser

/-- The characters that `Parser::read` makes of the bytes; it stops where they
end inside a character. -/
def characters : BString → List BString
  | [] => []
  | c :: rest =>
    let (expected, character) := BString.readPart (BString.expectedBytes c) [c] rest
    if expected = 0 then character :: characters (rest.drop (character.length - 1)) else []
termination_by s => s.length
decreasing_by simp only [List.length_drop, List.length_cons]; omega

theorem characters_nil : characters [] = [] := by rw [characters]

/-- The loop of `Parser::read`: it ends where a character is not taken or there
is a result. -/
def push (P : Program κ σ τ φ) (fuel : ℕ) (m : Match κ σ τ) : List BString → Run φ (Match κ σ τ)
  | [] => return m
  | c :: cs => do
    let (m, matched, _) ← m.matches_ P fuel c
    if m.result ≠ none || !matched then return m else push P fuel m cs

/-- `Parser::read` -/
def read (P : Program κ σ τ φ) (fuel : ℕ) (p : Parser κ σ τ) (s : BString) :
    Run φ (Parser κ σ τ) := do
  let m ← push P fuel p.match_ (characters s)
  return ⟨m, if m.result ≠ none then m.result else p.result⟩

/-- `Parser::eof` -/
def eof (P : Program κ σ τ φ) (fuel : ℕ) (p : Parser κ σ τ) : Run φ (Parser κ σ τ) :=
  if p.result ≠ none then return p
  else do
    let (m, _) ← p.match_.eof P fuel
    return ⟨m, if m.result ≠ none then m.result else p.result⟩

end Parser

end BeeFish
