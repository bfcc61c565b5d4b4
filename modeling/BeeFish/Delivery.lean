/-
# Input in pieces

`Parser::read` is given the input in pieces, as they come from a socket. It
puts the characters of a piece together and starts anew with the next piece,
so the bytes of a character that a piece ends inside are lost. A matcher that
has a result is not changed by what comes after it (`settled_of_matches`), so
the pieces are read as the whole input is, as long as the matcher takes every
character until it has a result and no piece ends inside a character before
that; and a cut inside a character is one that a word notices
(`Parser.readPieces_carried`).

Key definitions: `Parser.readPieces`, `Parser.Takes`, `Parser.Carried`,
`Parser.CutsBetween`.
-/
import BeeFish.Match
import BeeFish.Scan

namespace BeeFish

open Utf8

variable {κ σ τ φ : Type}

namespace Match

/-- Whatever the matcher creates has no result yet. -/
inductive Plain : Match κ σ τ → Prop
  | character (c : Option BString) (r : Option Bool) : Plain (character c r)
  | range (lo hi : BString) (r : Option Bool) : Plain (range lo hi r)
  | word (lower : BString → BString) (index : BString) (r : Option Bool) :
      Plain (word lower index r)
  | and {inputs : List (Match κ σ τ)} (h : ∀ m ∈ inputs, Plain m) (i : ℕ) (r : Option Bool) :
      Plain (and inputs i r)
  | or {inputs : List (Match κ σ τ)} (h : ∀ m ∈ inputs, Plain m) (i : Option ℕ) (r : Option Bool) :
      Plain (or inputs i r)
  | orderOfPrecedence (groups : List ℕ) {inputs : List (Match κ σ τ)} (h : ∀ m ∈ inputs, Plain m)
      (i : Option ℕ)
      (r : Option Bool) : Plain (orderOfPrecedence groups inputs i r)
  | not {m : Match κ σ τ} (h : Plain m) (r : Option Bool) : Plain (not m r)
  | optional {m : Match κ σ τ} (h : Plain m) (r : Option Bool) : Plain (optional m r)
  | repeated {create : Match κ σ τ} {item : Option (Match κ σ τ)} (hc : Plain create)
      (h0 : create.result = none)
      (hi : ∀ m ∈ item, Plain m) (lo hi n : ℕ) (r : Option Bool) :
        Plain (repeated create item lo hi n r)
  | capture (success : BString → Bool) (value : BString) {m : Match κ σ τ} (h : Plain m)
      (r : Option Bool) :
      Plain (capture success value m r)
  | invoke (f : τ) {m : Match κ σ τ} (h : Plain m) (r : Option Bool) : Plain (invoke f m r)
  | loadOnDemand (k : κ) {item : Option (Match κ σ τ)} (h : ∀ m ∈ item, Plain m) (r : Option Bool) :
      Plain (loadOnDemand k item r)
  | object (self : σ) {m : Match κ σ τ} (h : Plain m) (r : Option Bool) : Plain (object self m r)

end Match

/-- What a grammar loads on demand has no result yet either. -/
structure Program.Plain (P : Program κ σ τ φ) : Prop where
  item : ∀ k, (P.createItem k).Plain
  result : ∀ k, (P.createItem k).result = none

namespace Match

variable {P : Program κ σ τ φ}

/-! ### Plain matchers stay plain -/

/-- The first of the three things `match` comes to. -/
def PlainAfter (run : Run φ (Matched κ σ τ)) : Prop := ∀ r, run = .ok r → r.1.Plain

theorem plain_andLoop {f : Match κ σ τ → Run φ (Matched κ σ τ)}
    (hf : ∀ m, m.Plain → PlainAfter (f m)) : ∀ (fuel : ℕ)
    {inputs : List (Match κ σ τ)} (i : ℕ), (∀ m ∈ inputs, m.Plain) → PlainAfter
    (andLoop f fuel inputs i)
  | 0, _, _, _ => fun _ h => nomatch h
  | fuel + 1, inputs, i, hin => by
    intro r h
    rw [andLoop] at h
    split at h
    · obtain rfl := Run.ok_inj.mp h
      exact .and hin _ _
    · next item hi =>
      obtain ⟨⟨item', b, calls⟩, hrun, h⟩ := Run.bind_eq_ok.mp h
      have hitem : item'.Plain := hf item (hin _ (List.mem_of_getElem? hi)) _ hrun
      have hset : ∀ m ∈ inputs.set i item', m.Plain := fun m hm =>
        (List.mem_or_eq_of_mem_set hm).elim (hin m) fun he => he ▸ hitem
      simp only at h
      split at h
      · split_ifs at h
        · obtain rfl := Run.ok_inj.mp h
          exact .and hset _ _
        · obtain rfl := Run.ok_inj.mp h
          exact .and hset _ _
        · obtain ⟨r', hr', h⟩ := Run.bind_eq_ok.mp h
          obtain rfl := Run.ok_inj.mp h
          exact plain_andLoop hf fuel (i + 1) hset r' hr'
      · obtain rfl := Run.ok_inj.mp h
        exact .and hset _ _
      · split_ifs at h
        · obtain rfl := Run.ok_inj.mp h
          exact .and hset _ _
        · obtain ⟨r', hr', h⟩ := Run.bind_eq_ok.mp h
          obtain rfl := Run.ok_inj.mp h
          exact plain_andLoop hf fuel i hset r' hr'

theorem plain_orLoop {f : Match κ σ τ → Run φ (Matched κ σ τ)}
    (hf : ∀ m, m.Plain → PlainAfter (f m)) :
    ∀ {inputs before : List (Match κ σ τ)} {b : Bool} {r}, (∀ m ∈ before, m.Plain) →
      (∀ m ∈ inputs, m.Plain) →
    orLoop f before b inputs = .ok r → ∀ m ∈ r.1, m.Plain
  | [], before, b, r, hb, _, h => by
    obtain rfl := Run.ok_inj.mp h
    exact hb
  | item :: inputs, before, b, r, hb, hin, h => by
    obtain ⟨hitem, hrest⟩ := List.forall_mem_cons.mp hin
    rw [orLoop] at h
    split at h
    · obtain rfl := Run.ok_inj.mp h
      exact List.forall_mem_append.mpr ⟨hb, hin⟩
    · exact plain_orLoop hf (List.forall_mem_append.mpr ⟨hb, List.forall_mem_singleton.mpr hitem⟩)
        hrest h
    · obtain ⟨⟨item', b', calls⟩, hrun, h⟩ := Run.bind_eq_ok.mp h
      have hitem' : item'.Plain := hf item hitem _ hrun
      simp only at h
      split_ifs at h
      · obtain rfl := Run.ok_inj.mp h
        exact List.forall_mem_append.mpr ⟨hb, List.forall_mem_cons.mpr ⟨hitem', hrest⟩⟩
      · obtain ⟨r', hr', h⟩ := Run.bind_eq_ok.mp h
        obtain rfl := Run.ok_inj.mp h
        have hbefore : ∀ m ∈ before ++ [item'], m.Plain :=
          List.forall_mem_append.mpr ⟨hb, List.forall_mem_singleton.mpr hitem'⟩
        exact (plain_orLoop hf hbefore hrest hr' :)

theorem plain_precedenceLoop {f : Match κ σ τ → Run φ (Matched κ σ τ)}
    (hf : ∀ m, m.Plain → PlainAfter (f m)) {groups : List ℕ} :
    ∀ {inputs before : List (Match κ σ τ)} {b : Bool} {r}, (∀ m ∈ before, m.Plain) →
      (∀ m ∈ inputs, m.Plain) →
    precedenceLoop f groups before b inputs = .ok r → ∀ m ∈ r.1, m.Plain
  | [], before, b, r, hb, _, h => by
    obtain rfl := Run.ok_inj.mp h
    exact hb
  | item :: inputs, before, b, r, hb, hin, h => by
    obtain ⟨hitem, hrest⟩ := List.forall_mem_cons.mp hin
    -- what the loop comes to with the input as it is then
    have hgo : ∀ {item' : Match κ σ τ} {b' : Bool} {calls : List (τ × Match κ σ τ)}, item'.Plain →
        (if item'.result = some true ∧ confirm groups (before ++ item' :: inputs) before.length then
          pure (before ++ item' :: inputs, b || b', some before.length, calls)
        else do
          let r ← precedenceLoop f groups (before ++ [item']) (b || b') inputs
          return (r.1, r.2.1, r.2.2.1, calls ++ r.2.2.2)) = Run.ok r → ∀ m ∈ r.1, m.Plain := by
      intro item' b' calls hitem' h
      split_ifs at h
      · obtain rfl := Run.ok_inj.mp h
        exact List.forall_mem_append.mpr ⟨hb, List.forall_mem_cons.mpr ⟨hitem', hrest⟩⟩
      · obtain ⟨r', hr', h⟩ := Run.bind_eq_ok.mp h
        obtain rfl := Run.ok_inj.mp h
        have hbefore : ∀ m ∈ before ++ [item'], m.Plain :=
          List.forall_mem_append.mpr ⟨hb, List.forall_mem_singleton.mpr hitem'⟩
        exact (plain_precedenceLoop hf hbefore hrest hr' :)
    rw [precedenceLoop] at h
    split_ifs at h
    · exact plain_precedenceLoop hf
        (List.forall_mem_append.mpr ⟨hb, List.forall_mem_singleton.mpr hitem⟩) hrest h
    · obtain ⟨⟨item', b', calls⟩, hrun, h⟩ := Run.bind_eq_ok.mp h
      exact hgo (hf item hitem _ hrun) h
    · exact hgo hitem h

theorem plain_matches (hP : P.Plain) (c : BString) : ∀ (fuel : ℕ) (m : Match κ σ τ), m.Plain →
    PlainAfter (matches_ P fuel m c)
  | 0, _, _ => fun _ h => nomatch h
  | fuel + 1, m, hm => by
    have ih := plain_matches hP c fuel
    intro r h
    cases hm with
    | character ch res =>
      simp only [matches_] at h
      split_ifs at h <;> obtain rfl := Run.ok_inj.mp h <;> exact .character _ _
    | range lo hi res =>
      obtain rfl := Run.ok_inj.mp h
      exact .range _ _ _
    | word lower index res =>
      simp only [matches_] at h
      split_ifs at h <;> obtain rfl := Run.ok_inj.mp h <;> exact .word _ _ _
    | and hin i res =>
      simp only [matches_] at h
      split_ifs at h
      · obtain rfl := Run.ok_inj.mp h
        exact .and hin _ _
      · exact plain_andLoop ih fuel i hin r h
    | or hin i res =>
      simp only [matches_] at h
      split_ifs at h
      · obtain rfl := Run.ok_inj.mp h
        exact .or hin _ _
      · obtain ⟨⟨inputs, matched, found, calls⟩, hrun, h⟩ := Run.bind_eq_ok.mp h
        have hin' : ∀ m ∈ inputs, m.Plain := plain_orLoop ih (by simp) hin hrun
        simp only at h
        split_ifs at h <;> obtain rfl := Run.ok_inj.mp h <;> exact .or hin' _ _
    | orderOfPrecedence groups hin i res =>
      simp only [matches_] at h
      split_ifs at h
      · obtain rfl := Run.ok_inj.mp h
        exact .orderOfPrecedence _ hin _ _
      · obtain ⟨⟨inputs, matched, found, calls⟩, hrun, h⟩ := Run.bind_eq_ok.mp h
        have hin' : ∀ m ∈ inputs, m.Plain := plain_precedenceLoop ih (by simp) hin hrun
        simp only at h
        split_ifs at h <;> obtain rfl := Run.ok_inj.mp h <;> exact .orderOfPrecedence _ hin' _ _
    | not hm res =>
      simp only [matches_] at h
      split at h
      · obtain rfl := Run.ok_inj.mp h
        exact .not hm _
      · obtain ⟨⟨m', b, calls⟩, hrun, h⟩ := Run.bind_eq_ok.mp h
        have hm' : m'.Plain := ih _ hm _ hrun
        simp only at h
        split_ifs at h <;> obtain rfl := Run.ok_inj.mp h <;> exact .not hm' _
    | optional hm res =>
      obtain ⟨⟨m', b, calls⟩, hrun, h⟩ := Run.bind_eq_ok.mp h
      obtain rfl := Run.ok_inj.mp h
      exact .optional (ih _ hm _ hrun) _
    | @repeated create item hc h0 hi lo hi' n res =>
      by_cases hres : res ≠ none
      · rw [matches_, if_pos hres] at h
        obtain rfl := Run.ok_inj.mp h
        exact .repeated hc h0 hi _ _ _ _
      · rw [matches_, if_neg hres] at h
        obtain ⟨⟨item', b, calls⟩, hrun, h⟩ := Run.bind_eq_ok.mp h
        have hstart : (item.getD create).Plain := by
          cases item with
          | none => exact hc
          | some m => exact hi m rfl
        have hitem : item'.Plain := ih _ hstart _ hrun
        have hsome : ∀ m ∈ some item', m.Plain := fun m he => Option.mem_some.mp he ▸ hitem
        have hnew : ∀ m ∈ some create, m.Plain := fun m he => Option.mem_some.mp he ▸ hc
        simp only at h
        split at h
        · obtain rfl := Run.ok_inj.mp h
          exact .repeated hc h0 hnew _ _ _ _
        · obtain rfl := Run.ok_inj.mp h
          exact .repeated hc h0 hsome _ _ _ _
        · obtain rfl := Run.ok_inj.mp h
          exact .repeated hc h0 hsome _ _ _ _
    | capture success value hm res =>
      simp only [matches_] at h
      split_ifs at h
      · obtain rfl := Run.ok_inj.mp h
        exact .capture _ _ hm _
      · obtain ⟨⟨m', b, calls⟩, hrun, h⟩ := Run.bind_eq_ok.mp h
        obtain rfl := Run.ok_inj.mp h
        exact .capture _ _ (ih _ hm _ hrun) _
    | invoke f hm res =>
      simp only [matches_] at h
      split_ifs at h
      · obtain rfl := Run.ok_inj.mp h
        exact .invoke _ hm _
      · obtain ⟨⟨m', b, calls⟩, hrun, h⟩ := Run.bind_eq_ok.mp h
        obtain rfl := Run.ok_inj.mp h
        exact .invoke _ (ih _ hm _ hrun) _
    | @loadOnDemand k item hi res =>
      obtain ⟨⟨m', b, calls⟩, hrun, h⟩ := Run.bind_eq_ok.mp h
      obtain rfl := Run.ok_inj.mp h
      have hstart : (item.getD (P.createItem k)).Plain := by
        cases item with
        | none => exact hP.item k
        | some m => exact hi m rfl
      exact .loadOnDemand _ (fun m he => Option.mem_some.mp he ▸ ih _ hstart _ hrun) _
    | object self hm res =>
      simp only [matches_] at h
      split_ifs at h
      · obtain rfl := Run.ok_inj.mp h
        exact .object _ hm _
      · obtain ⟨⟨m', b, calls⟩, hrun, h⟩ := Run.bind_eq_ok.mp h
        obtain ⟨self', -, h⟩ := Run.bind_eq_ok.mp h
        obtain rfl := Run.ok_inj.mp h
        exact .object _ (ih _ hm _ hrun) _

/-! ### Settled matchers -/

/-- The matcher has a result, and no character changes it any more. -/
structure Settled (P : Program κ σ τ φ) (fuel : ℕ) (m : Match κ σ τ) : Prop where
  result : m.result ≠ none
  unchanged : ∀ c, ∃ b, matches_ P fuel m c = .ok (m, b, [])

theorem settled_of_guard {fuel : ℕ} {m : Match κ σ τ} (h : m.result ≠ none)
    (hg : ∀ c, matches_ P (fuel + 1) m c = .ok (m, false, [])) : Settled P (fuel + 1) m :=
  ⟨h, fun c => ⟨false, hg c⟩⟩

theorem result_andLoop {f : Match κ σ τ → Run φ (Matched κ σ τ)} :
    ∀ (fuel : ℕ) {inputs : List (Match κ σ τ)} {i : ℕ} {r},
    andLoop f fuel inputs i = .ok r → ∃ inputs' i' res, r.1 = and inputs' i' res
  | 0, _, _, _, h => nomatch h
  | fuel + 1, inputs, i, r, h => by
    rw [andLoop] at h
    split at h
    · obtain rfl := Run.ok_inj.mp h
      exact ⟨_, _, _, rfl⟩
    · obtain ⟨⟨item', b, calls⟩, -, h⟩ := Run.bind_eq_ok.mp h
      simp only at h
      split at h
      · split_ifs at h
        · obtain rfl := Run.ok_inj.mp h
          exact ⟨_, _, _, rfl⟩
        · obtain rfl := Run.ok_inj.mp h
          exact ⟨_, _, _, rfl⟩
        · obtain ⟨r', hr', h⟩ := Run.bind_eq_ok.mp h
          obtain rfl := Run.ok_inj.mp h
          exact (result_andLoop fuel hr' :)
      · obtain rfl := Run.ok_inj.mp h
        exact ⟨_, _, _, rfl⟩
      · split_ifs at h
        · obtain rfl := Run.ok_inj.mp h
          exact ⟨_, _, _, rfl⟩
        · obtain ⟨r', hr', h⟩ := Run.bind_eq_ok.mp h
          obtain rfl := Run.ok_inj.mp h
          exact (result_andLoop fuel hr' :)

/-- A matcher that comes to a result with a character is settled. -/
theorem settled_of_matches (hP : P.Plain) (c : BString) :
    ∀ (fuel : ℕ) (m : Match κ σ τ) {m' : Match κ σ τ} {b : Bool}
    {calls : List (τ × Match κ σ τ)}, m.Plain → m.result = none → matches_ P fuel m c = .ok
    (m', b, calls) →
    m'.result ≠ none → Settled P fuel m'
  | 0, _, _, _, _, _, _, h, _ => nomatch h
  | fuel + 1, m, m', b, calls, hm, h0, h, hr => by
    cases hm with
    | character ch res =>
      obtain rfl : res = none := h0
      obtain ⟨rfl, -, -⟩ := by simpa [matches_] using h
      exact settled_of_guard hr fun _ => rfl
    | range lo hi res =>
      obtain rfl : res = none := h0
      obtain ⟨rfl, -, -⟩ := by simpa [matches_, setResult] using h
      exact ⟨hr, fun c' => ⟨_, rfl⟩⟩
    | word lower index res =>
      obtain rfl : res = none := h0
      simp only [matches_, ne_eq, not_true_eq_false, if_false] at h
      obtain rfl := congrArg Prod.fst (Run.ok_inj.mp h)
      refine settled_of_guard hr fun c' => ?_
      rw [matches_]
      exact if_pos hr
    | and hin i res =>
      obtain rfl : res = none := h0
      rw [matches_, if_neg (not_not.mpr rfl)] at h
      obtain ⟨inputs', i', res', he⟩ := result_andLoop fuel h
      obtain rfl : m' = _ := he
      refine settled_of_guard hr fun c' => ?_
      rw [matches_]
      exact if_pos hr
    | or hin i res =>
      rw [matches_, if_neg (not_not.mpr h0)] at h
      obtain ⟨⟨inputs', matched, found, calls'⟩, -, h⟩ := Run.bind_eq_ok.mp h
      obtain ⟨i', res', rfl⟩ : ∃ i' res', m' = or inputs' i' res' := by
        simp only at h
        split_ifs at h <;> exact ⟨_, _, congrArg Prod.fst (Run.ok_inj.mp h).symm⟩
      refine settled_of_guard hr fun c' => ?_
      rw [matches_]
      exact if_pos hr
    | orderOfPrecedence groups hin i res =>
      rw [matches_, if_neg (not_not.mpr h0)] at h
      obtain ⟨⟨inputs', matched, found, calls'⟩, -, h⟩ := Run.bind_eq_ok.mp h
      obtain ⟨i', res', rfl⟩ : ∃ i' res', m' = orderOfPrecedence groups inputs' i' res' := by
        simp only at h
        split_ifs at h <;> exact ⟨_, _, congrArg Prod.fst (Run.ok_inj.mp h).symm⟩
      refine settled_of_guard hr fun c' => ?_
      rw [matches_]
      exact if_pos hr
    | not hm res =>
      obtain rfl : res = none := by
        cases res with
        | none => rfl
        | some r => simp [result] at h0
      obtain ⟨⟨k, b', calls'⟩, -, h⟩ := Run.bind_eq_ok.mp h
      have hshape : ∃ r, m' = not k (some r) := by
        simp only at h
        split_ifs at h with h1 h2
        · exact ⟨_, (congrArg Prod.fst (Run.ok_inj.mp h)).symm⟩
        · exact ⟨_, (congrArg Prod.fst (Run.ok_inj.mp h)).symm⟩
        · obtain rfl := congrArg Prod.fst (Run.ok_inj.mp h)
          exfalso
          cases hk : k.result with
          | none => simp [result, hk] at hr
          | some r => cases r <;> simp [hk] at h1 h2
      obtain ⟨r, rfl⟩ := hshape
      exact ⟨hr, fun c' => ⟨r, rfl⟩⟩
    | optional hm res =>
      obtain rfl : res = none := by
        cases res with
        | none => rfl
        | some r => simp [result] at h0
      obtain ⟨⟨k, b', calls'⟩, hrun, h⟩ := Run.bind_eq_ok.mp h
      obtain rfl := congrArg Prod.fst (Run.ok_inj.mp h)
      have hk : k.result ≠ none := by
        intro hk
        simp [hk, result] at hr
      have hset := settled_of_matches hP c fuel _ hm h0 hrun hk
      refine ⟨hr, fun c' => ?_⟩
      obtain ⟨b, hb⟩ := hset.unchanged c'
      exact ⟨b, by simp [matches_, hb, hk, setResult]⟩
    | @repeated create item hc h0' hi lo hi' n res =>
      obtain rfl : res = none := by
        cases res with
        | none => rfl
        | some r => cases item <;> simp [result] at h0
      rw [matches_, if_neg (not_not.mpr rfl)] at h
      obtain ⟨⟨k, b', calls'⟩, hrun, h⟩ := Run.bind_eq_ok.mp h
      -- a new item has no result, so the result is the matcher's own
      have hown : ∀ {item' n' res'}, m' = repeated create (some item') lo hi' n' res' →
        item'.result = none ∨ res' ≠ none →
          Settled P (fuel + 1) m' := by
        rintro item' n' res' rfl hres
        have hres' : res' ≠ none := by
          rcases hres with h1 | h1
          · intro h2
            simp [result, h1, h2] at hr
          · exact h1
        refine settled_of_guard hr fun c' => ?_
        rw [matches_]
        exact if_pos hres'
      simp only at h
      split at h
      · exact hown (congrArg Prod.fst (Run.ok_inj.mp h)).symm (Or.inl h0')
      · exact hown (congrArg Prod.fst (Run.ok_inj.mp h)).symm (Or.inr (Option.some_ne_none _))
      · next hk => exact hown (congrArg Prod.fst (Run.ok_inj.mp h)).symm (Or.inl hk)
    | @capture success value k hm res =>
      rw [matches_, if_neg (not_not.mpr h0)] at h
      obtain ⟨⟨k', b', calls'⟩, -, h⟩ := Run.bind_eq_ok.mp h
      obtain rfl := congrArg Prod.fst (Run.ok_inj.mp h)
      refine settled_of_guard hr fun c' => ?_
      rw [matches_]
      exact if_pos hr
    | @invoke f k hm res =>
      rw [matches_, if_neg (not_not.mpr h0)] at h
      obtain ⟨⟨k', b', calls'⟩, -, h⟩ := Run.bind_eq_ok.mp h
      obtain rfl := congrArg Prod.fst (Run.ok_inj.mp h)
      refine settled_of_guard hr fun c' => ?_
      rw [matches_]
      exact if_pos hr
    | @loadOnDemand k item hi res =>
      obtain rfl : res = none := by
        cases res with
        | none => rfl
        | some r => cases item <;> simp [result] at h0
      obtain ⟨⟨k', b', calls'⟩, hrun, h⟩ := Run.bind_eq_ok.mp h
      obtain rfl := congrArg Prod.fst (Run.ok_inj.mp h)
      have hstart : (item.getD (P.createItem k)).Plain ∧
        (item.getD (P.createItem k)).result = none := by
        cases item with
        | none => exact ⟨hP.item k, hP.result k⟩
        | some m => exact ⟨hi m rfl, h0⟩
      have hset := settled_of_matches hP c fuel _ hstart.1 hstart.2 hrun hr
      refine ⟨hr, fun c' => ?_⟩
      obtain ⟨b, hb⟩ := hset.unchanged c'
      exact ⟨b, by simp [matches_, hb]⟩
    | @object self k hm res =>
      rw [matches_, if_neg (not_not.mpr h0)] at h
      obtain ⟨⟨k', b', calls'⟩, -, h⟩ := Run.bind_eq_ok.mp h
      obtain ⟨self', -, h⟩ := Run.bind_eq_ok.mp h
      obtain rfl := congrArg Prod.fst (Run.ok_inj.mp h)
      refine settled_of_guard hr fun c' => ?_
      rw [matches_]
      exact if_pos hr

end Match

open Match

namespace Parser

variable {P : Program κ σ τ φ}

/-! ### Characters of pieces -/

theorem characters_cons {c rest : BString} (hc : IsChar c) :
    characters (c ++ rest) = c :: characters rest := by
  obtain ⟨lead, tail, rfl⟩ := List.exists_cons_of_ne_nil hc.ne_nil
  have hw : tail.length + 1 = width lead := hc.width
  have hr : BString.readPart (BString.expectedBytes lead) [lead] (tail ++ rest) =
    (0, [lead] ++ tail) := by
    refine readPart_tail hc.tail ?_
    rw [expectedBytes_eq lead (by omega)]
    split_ifs <;> omega
  rw [List.cons_append, characters, hr]
  simp

theorem characters_part {part : BString} (hp : IsPart part) : characters part = [] := by
  rcases hp with rfl | ⟨c, hc, hpc, hne⟩
  · rw [characters]
  · cases part with
    | nil => rw [characters]
    | cons lead tail =>
      obtain ⟨rest, rfl⟩ := hpc
      have hw : tail.length + rest.length + 1 = width lead := by
        have := hc.width
        simpa using this
      have hrest : 0 < rest.length := List.length_pos_iff.mpr fun he => hne (by simp [he])
      have htail : ∀ b ∈ tail, IsTail b := fun b hb => hc.tail b (by simp [hb])
      obtain ⟨h1, -⟩ := readPart_short (BString.expectedBytes lead) [lead] htail (by
        rw [expectedBytes_eq lead (by omega)]
        split_ifs <;> omega)
      rw [characters]
      exact if_neg h1

/-- The characters of a text and the part of one after it. -/
theorem characters_flatten : ∀ {cs : List BString} {part : BString}, IsText cs → IsPart part →
    characters (cs.flatten ++ part) = cs
  | [], _, _, hp => characters_part hp
  | c :: cs, part, h, hp => by
    rw [List.flatten_cons, List.append_assoc, characters_cons (h c List.mem_cons_self),
      characters_flatten (fun k hk => h k (List.mem_cons_of_mem _ hk)) hp]

theorem characters_text {cs : List BString} (h : IsText cs) : characters cs.flatten = cs := by
  simpa using characters_flatten h isPart_nil

/-! ### Pieces of whole characters -/

/-- The matcher takes every character until it has a result. -/
def Takes (P : Program κ σ τ φ) (fuel : ℕ) : Match κ σ τ → List BString → Prop
  | _, [] => True
  | m, c :: cs => ∀ m' matched calls, m.matches_ P fuel c = .ok (m', matched, calls) →
      m'.result ≠ none ∨ (matched = true ∧ Takes P fuel m' cs)

/-- The matcher before its result: nothing it creates has one. -/
structure Waits (m : Match κ σ τ) : Prop where
  plain : m.Plain
  result : m.result = none

theorem push_settled {fuel : ℕ} {m : Match κ σ τ} (h : Settled P fuel m) :
    ∀ cs, push P fuel m cs = .ok m
  | [] => rfl
  | c :: cs => by
    obtain ⟨b, hb⟩ := h.unchanged c
    have hr : (m.result ≠ none || !b) = true := by simp [h.result]
    simp only [push, hb, Run.ok_bind, hr, if_true]
    rfl

section

variable {fuel : ℕ} {m m' : Match κ σ τ} {c : BString} {b : Bool} {calls : List (τ × Match κ σ τ)}

theorem push_taken (h : m.matches_ P fuel c = .ok (m', true, calls)) (hr : m'.result = none)
    (cs : List BString) :
    push P fuel m (c :: cs) = push P fuel m' cs := by
  have hgo : ¬ (m'.result ≠ none || !true) = true := by simp [hr]
  rw [push, h, Run.ok_bind]
  exact if_neg hgo

theorem push_result (h : m.matches_ P fuel c = .ok (m', b, calls)) (hr : m'.result ≠ none)
    (cs : List BString) :
    push P fuel m (c :: cs) = .ok m' := by
  have hstop : (m'.result ≠ none || !b) = true := by simp [hr]
  rw [push, h, Run.ok_bind]
  exact if_pos hstop

end

/-- What is left of the reading after some characters that are taken. -/
theorem push_append (hP : P.Plain) {fuel : ℕ} (ds : List BString) :
    ∀ {cs : List BString} {m : Match κ σ τ}, Waits m →
    Takes P fuel m cs → push P fuel m (cs ++ ds) = push P fuel m cs >>= fun m' => push P fuel m' ds
  | [], m, _, _ => rfl
  | c :: cs, m, hm, ht => by
    rw [List.cons_append]
    rcases (m.matches_ P fuel c).cases with hrun | ⟨f, hrun⟩ | ⟨⟨m', b, calls⟩, hrun⟩
    · rw [push, push, hrun]
      rfl
    · rw [push, push, hrun]
      rfl
    · by_cases hr : m'.result = none
      · obtain ⟨rfl, ht'⟩ := (ht m' b calls hrun).resolve_left (not_not.mpr hr)
        rw [push_taken hrun hr, push_taken hrun hr]
        exact push_append hP ds ⟨plain_matches hP c fuel m hm.plain _ hrun, hr⟩ ht'
      · have hset := settled_of_matches hP c fuel m hm.plain hm.result hrun hr
        rw [push_result hrun hr, push_result hrun hr, Run.ok_bind, push_settled hset]

/-- What is taken of the characters after the first. -/
theorem takes_append {fuel : ℕ} {ds : List BString} : ∀ {cs : List BString} {m : Match κ σ τ},
    Takes P fuel m (cs ++ ds) →
    Takes P fuel m cs ∧ ∀ m', push P fuel m cs = .ok m' → m'.result = none → Takes P fuel m' ds
  | [], m, ht => ⟨trivial, fun m' h _ => (Run.ok_inj.mp h) ▸ ht⟩
  | c :: cs, m, ht => by
    rw [List.cons_append] at ht
    refine ⟨fun m' b calls hrun => ?_, fun k hk hnone => ?_⟩
    · exact (ht m' b calls hrun).imp id fun h => ⟨h.1, (takes_append h.2).1⟩
    · have hfirst := hk
      rw [push, Run.bind_eq_ok] at hfirst
      obtain ⟨⟨m', b, calls⟩, hrun, -⟩ := hfirst
      by_cases hr : m'.result = none
      · obtain ⟨rfl, ht'⟩ := (ht m' b calls hrun).resolve_left (not_not.mpr hr)
        rw [push_taken hrun hr] at hk
        exact (takes_append ht').2 k hk hnone
      · rw [push_result hrun hr] at hk
        obtain rfl := Run.ok_inj.mp hk
        exact absurd hnone hr

/-! ### Reading in pieces -/

/-- `Parser::read` for one piece after the other, and then `Parser::eof`. -/
def readPieces (P : Program κ σ τ φ) (fuel : ℕ) (p : Parser κ σ τ) (pieces : List BString) :
    Run φ (Parser κ σ τ) := do
  let p ← pieces.foldlM (read P fuel) p
  eof P fuel p

/-- The parser with a matcher, as it starts. -/
def ofMatch (m : Match κ σ τ) : Parser κ σ τ := ⟨m, none⟩

/-- A parser after some characters. -/
def ofPushed (m : Match κ σ τ) : Parser κ σ τ := ⟨m, m.result⟩

theorem push_after (hP : P.Plain) {fuel : ℕ} : ∀ {cs : List BString} {m m' : Match κ σ τ}, Waits m →
    push P fuel m cs = .ok m' →
    Settled P fuel m' ∨ Waits m'
  | [], m, m', hm, h => Or.inr ((Run.ok_inj.mp h) ▸ hm)
  | c :: cs, m, m', hm, h => by
    obtain ⟨⟨k, b, calls⟩, hrun, h⟩ := Run.bind_eq_ok.mp h
    have hplain : k.Plain := plain_matches hP c fuel m hm.plain _ hrun
    simp only at h
    split_ifs at h with hstop
    · obtain rfl := Run.ok_inj.mp h
      by_cases hr : k.result = none
      · exact Or.inr ⟨hplain, hr⟩
      · exact Or.inl (settled_of_matches hP c fuel m hm.plain hm.result hrun hr)
    · have hr : k.result = none := by
        by_contra hr
        exact hstop (by simp [hr])
      exact push_after hP ⟨hplain, hr⟩ h

theorem read_characters {fuel : ℕ} {m : Match κ σ τ} {piece : BString} {cs : List BString}
    (h : characters piece = cs)
    (hm : m.result = none ∨ Settled P fuel m) :
    read P fuel (ofPushed m) piece = push P fuel m cs >>= fun m' => .ok (ofPushed m') := by
  rw [read, h]
  rcases hm with hm | hm
  · refine congrArg (push P fuel m cs >>= ·) (funext fun m' => ?_)
    by_cases hr : m'.result = none
    · simp [ofPushed, hm, hr]
    · simp [ofPushed, hr]
  · have hown : (ofPushed m).match_ = m := rfl
    rw [hown, push_settled hm, Run.ok_bind, Run.ok_bind, if_pos hm.result]
    rfl

theorem foldlM_settled {fuel : ℕ} {m : Match κ σ τ} (h : Settled P fuel m) :
    ∀ pieces : List BString,
    pieces.foldlM (read P fuel) (ofPushed m) = .ok (ofPushed m)
  | [] => rfl
  | piece :: pieces => by
    rw [List.foldlM_cons, read_characters rfl (Or.inr h), push_settled h, Run.ok_bind, Run.ok_bind,
      foldlM_settled h pieces]

theorem characters_text_append : ∀ {cs : List BString}, IsText cs →
    ∀ v, characters (cs.flatten ++ v) = cs ++ characters v
  | [], _, _ => rfl
  | c :: cs, h, v => by
    rw [List.flatten_cons, List.append_assoc, characters_cons (h c List.mem_cons_self),
      characters_text_append (fun k hk => h k (List.mem_cons_of_mem _ hk)), List.cons_append]

/-- Wherever there is more to come after a piece, the matcher has taken every whole
character so far until it has a result, and has one if the piece ends inside a
character. -/
def Carried (P : Program κ σ τ φ) (fuel : ℕ) (m : Match κ σ τ) (pieces : List BString) : Prop :=
  ∀ before after, pieces = before ++ after → after.flatten ≠ [] →
    Takes P fuel m (characters before.flatten) ∧
    ∀ m', push P fuel m (characters before.flatten) = .ok m' → m'.result = none →
      (characters before.flatten).flatten = before.flatten

theorem flatten_eq_nil {cs : List BString} (h : IsText cs) (h0 : cs.flatten = []) : cs = [] := by
  cases cs with
  | nil => rfl
  | cons c cs => exact absurd (List.append_eq_nil_iff.mp h0).1 (h c List.mem_cons_self).ne_nil

theorem foldlM_read (hP : P.Plain) {fuel : ℕ} : ∀ {pieces cs : List BString} {m : Match κ σ τ},
    IsText cs → Waits m →
    pieces.flatten = cs.flatten → Carried P fuel m pieces →
    pieces.foldlM (read P fuel) (ofPushed m) = push P fuel m cs >>= fun m' => .ok (ofPushed m')
  | [], cs, m, hcs, _, hp, _ => by
    obtain rfl := flatten_eq_nil hcs hp.symm
    rfl
  | piece :: pieces, cs, m, hcs, hm, hp, hc => by
    rw [List.flatten_cons] at hp
    obtain ⟨pre, post, part, rfl, rfl, hbeg, -⟩ := split_isPrefix hcs ⟨pieces.flatten, hp⟩
    have hpre : IsText pre := fun k hk => hcs k (List.mem_append_left _ hk)
    have hpost : IsText post := fun k hk => hcs k (List.mem_append_right _ hk)
    rw [List.flatten_append, List.append_assoc, List.append_cancel_left_eq] at hp
    have hchars : characters (pre.flatten ++ part) = pre :=
      characters_flatten hpre (isPart_of_begins hpost hbeg)
    rw [List.foldlM_cons, read_characters hchars (Or.inl hm.result)]
    by_cases hlast : pieces.flatten = []
    · -- nothing is left to come
      rw [hlast, List.append_nil] at hp
      obtain ⟨rfl, rfl⟩ := hbeg.eq_nil hpost hp.symm
      rw [List.append_nil]
      rcases (push P fuel m pre).cases with hrun | ⟨f, hrun⟩ | ⟨m', hrun⟩
      · rw [hrun]
        rfl
      · rw [hrun]
        rfl
      · rw [hrun, Run.ok_bind, Run.ok_bind]
        rcases push_after hP hm hrun with hset | hm'
        · exact foldlM_settled hset pieces
        · have hnone : Carried P fuel m' pieces := by
            intro before after he hne
            rw [he, List.flatten_append, List.append_eq_nil_iff] at hlast
            exact absurd hlast.2 hne
          exact foldlM_read hP hpost hm' hlast hnone
    · obtain ⟨htakes, hend⟩ := hc [pre.flatten ++ part] pieces rfl hlast
      rw [List.flatten_singleton, hchars] at htakes hend
      rw [push_append hP post hm htakes]
      rcases (push P fuel m pre).cases with hrun | ⟨f, hrun⟩ | ⟨m', hrun⟩
      · rw [hrun]
        rfl
      · rw [hrun]
        rfl
      · rw [hrun, Run.ok_bind, Run.ok_bind, Run.ok_bind]
        rcases push_after hP hm hrun with hset | hm'
        · rw [foldlM_settled hset, push_settled hset]
          rfl
        · obtain rfl : part = [] := by simpa using hend m' hrun hm'.result
          refine foldlM_read hP hpost hm' hp fun before after he hne => ?_
          -- the cut after more pieces
          have hmore := hc ((pre.flatten ++ []) :: before) after (by rw [he]; rfl) hne
          rw [List.append_nil, List.flatten_cons, characters_text_append hpre, List.flatten_append,
            List.append_cancel_left_eq] at hmore
          obtain ⟨htakes', hend'⟩ := hmore
          refine ⟨(takes_append htakes').2 m' hrun hm'.result, fun k hk hr => hend' k ?_ hr⟩
          rw [push_append hP _ hm htakes, hrun, Run.ok_bind, hk]

/-- No piece ends inside a character. -/
def CutsBetween (cs : List BString) (pieces : List BString) : Prop :=
  ∃ css : List (List BString), css.flatten = cs ∧ css.map List.flatten = pieces

/-- Pieces that carry the matcher are read as the whole input is. -/
theorem readPieces_of_carried (hP : P.Plain) {fuel : ℕ} {m : Match κ σ τ} (hm : Waits m)
    {cs pieces : List BString} (h : IsText cs)
    (hp : pieces.flatten = cs.flatten) (hc : Carried P fuel m pieces) :
    readPieces P fuel (ofMatch m) pieces = readPieces P fuel (ofMatch m) [cs.flatten] := by
  have hstart : ofMatch m = ofPushed m := by rw [ofMatch, ofPushed, hm.result]
  have hone : Carried P fuel m [cs.flatten] := by
    intro before after he hne
    cases before with
    | nil =>
      rw [List.flatten_nil, characters_nil]
      exact ⟨trivial, fun _ _ _ => rfl⟩
    | cons piece before =>
      obtain rfl : after = [] := (List.append_eq_nil_iff.mp (List.cons.inj he).2.symm).2
      exact absurd rfl hne
  rw [readPieces, readPieces, hstart, foldlM_read hP h hm hp hc,
    foldlM_read hP h hm (List.flatten_singleton ..) hone]

/-- Whole characters that are taken carry the matcher. -/
theorem carried_of_cutsBetween {fuel : ℕ} {m : Match κ σ τ} {cs pieces : List BString}
    (h : IsText cs) (ht : Takes P fuel m cs)
    (hcut : CutsBetween cs pieces) : Carried P fuel m pieces := by
  obtain ⟨css, rfl, rfl⟩ := hcut
  intro before after he _
  obtain ⟨ds, es, rfl, rfl, rfl⟩ := List.map_eq_append_iff.mp he
  rw [List.flatten_append] at h ht
  have hds : IsText ds.flatten := fun k hk => h k (List.mem_append_left _ hk)
  have hbytes : (ds.map List.flatten).flatten = ds.flatten.flatten := List.flatten_flatten.symm
  rw [hbytes, characters_text hds]
  exact ⟨(takes_append ht).1, fun _ _ _ => rfl⟩

/-! ### A cut inside a character -/

theorem matches_word {k : ℕ} {index c : BString} (h0 : index ≠ []) (hc : c <+: index) :
    (word id index none : Match κ σ τ).matches_ P (k + 1) c =
      .ok (word id (index.drop c.length) (if index.drop c.length = [] then some true else none),
        true, []) := by
  simp [matches_, (matchChar_spec h0).1 hc]

theorem matches_word_fails {k : ℕ} {index c : BString} (h0 : index ≠ [])
    (hc : ¬ c <+: index) : ∃ index',
    (word id index none : Match κ σ τ).matches_ P (k + 1) c = .ok
    (word id index' (some false), false, []) :=
  ⟨(matchChar index c).1, by simp [matches_, (matchChar_spec h0).2 hc]⟩

theorem settled_word {k : ℕ} (index : BString) (r : Bool) :
    Settled P (k + 1) (word id index (some r) : Match κ σ τ) :=
  ⟨nofun, fun _ => ⟨false, rfl⟩⟩

theorem takes_word {k : ℕ} : ∀ (cs : List BString) (index : BString) (r : Option Bool),
    Takes P (k + 1) (word id index r : Match κ σ τ) cs
  | [], _, _ => trivial
  | c :: cs, index, some r => fun m' b calls h => by
    obtain rfl := congrArg Prod.fst (Run.ok_inj.mp h)
    exact Or.inl nofun
  | c :: cs, index, none => fun m' b calls h => by
    have h := Run.ok_inj.mp h
    obtain rfl := congrArg Prod.fst h
    cases hb : (matchChar index c).2 with
    | false => exact Or.inl (by simp [hb, Match.result])
    | true =>
      have hb' : b = true := (congrArg (fun r => r.2.1) h).symm.trans hb
      exact Or.inr ⟨hb', takes_word cs _ _⟩

/-- A word takes its first characters. -/
theorem push_word {k : ℕ} {v : BString} (hv : v ≠ []) : ∀ {cs : List BString}, IsText cs →
    push P (k + 1) (word id (cs.flatten ++ v) none : Match κ σ τ) cs = .ok (word id v none)
  | [], _ => rfl
  | c :: cs, h => by
    have hne : c ++ (cs.flatten ++ v) ≠ [] :=
      fun he => (h c List.mem_cons_self).ne_nil (List.append_eq_nil_iff.mp he).1
    have hne' : cs.flatten ++ v ≠ [] := fun he => hv (List.append_eq_nil_iff.mp he).2
    have hstep := matches_word (P := P) (k := k) hne (List.prefix_append c (cs.flatten ++ v))
    rw [List.drop_left, if_neg hne'] at hstep
    rw [List.flatten_cons, List.append_assoc, push_taken hstep rfl,
      push_word hv fun m hm => h m (List.mem_cons_of_mem _ hm)]

theorem push_word_all {k : ℕ} : ∀ {cs : List BString}, IsText cs → cs ≠ [] →
    push P (k + 1) (word id cs.flatten none : Match κ σ τ) cs = .ok (word id [] (some true))
  | [], _, h0 => absurd rfl h0
  | c :: cs, h, _ => by
    have hcs : IsText cs := fun m hm => h m (List.mem_cons_of_mem _ hm)
    have hne : c ++ cs.flatten ≠ [] := fun he => (h c List.mem_cons_self).ne_nil
      (List.append_eq_nil_iff.mp he).1
    have hstep := matches_word (P := P) (k := k) hne (List.prefix_append c cs.flatten)
    rw [List.drop_left] at hstep
    rw [List.flatten_cons]
    by_cases h0 : cs = []
    · subst h0
      exact push_result hstep nofun _
    · have hne' : cs.flatten ≠ [] := by
        intro he
        obtain ⟨d, ds, rfl⟩ := List.exists_cons_of_ne_nil h0
        exact (hcs d List.mem_cons_self).ne_nil (List.append_eq_nil_iff.mp he).1
      rw [if_neg hne'] at hstep
      rw [push_taken hstep rfl, push_word_all hcs h0]

theorem expectedBytes_tail {b : UInt8} (h : IsTail b) : BString.expectedBytes b = 1 := by
  have hall : ∀ n : Fin 256,
    IsTail (UInt8.ofNat n) → BString.expectedBytes (UInt8.ofNat n) = 1 := by decide +kernel
  have hb := hall ⟨b.toNat, b.toNat_lt⟩
  simp only [UInt8.ofNat_toNat] at hb
  exact hb h

theorem width_tail {b : UInt8} (h : IsTail b) : width b = 0 := by
  have hall : ∀ n : Fin 256, IsTail (UInt8.ofNat n) → width (UInt8.ofNat n) = 0 := by decide +kernel
  have hb := hall ⟨b.toNat, b.toNat_lt⟩
  simp only [UInt8.ofNat_toNat] at hb
  exact hb h

/-- A byte of a tail is read as a character of its own. -/
theorem characters_tail {b : UInt8} (h : IsTail b) (rest : BString) :
    characters (b :: rest) = [b] :: characters rest := by
  have hr : BString.readPart 1 [b] rest = (0, [b]) := by cases rest <;> rfl
  rw [characters, expectedBytes_tail h, hr]
  simp

/-- What does not go on as the word does is not the word. -/
theorem foldlM_read_tail {k : ℕ} {b : UInt8} (hb : IsTail b) {index : BString} (h0 : index ≠ [])
    (hne : ¬ [b] <+: index) :
    ∀ {pieces : List BString} {t : BString}, pieces.flatten = b :: t → ∃ index',
      pieces.foldlM (read P (k + 1)) (ofPushed (word id index none : Match κ σ τ)) =
        .ok (ofPushed (word id index' (some false)))
  | [], _, h => nomatch h
  | [] :: pieces, t, h => by
    have hread : read P (k + 1) (ofPushed (word id index none : Match κ σ τ)) [] =
        .ok (ofPushed (word id index none)) := by
      rw [read, characters]
      rfl
    rw [List.foldlM_cons, hread, Run.ok_bind]
    exact foldlM_read_tail hb h0 hne h
  | (d :: piece) :: pieces, t, h => by
    obtain ⟨rfl, -⟩ : d = b ∧ piece ++ pieces.flatten = t := List.cons.inj h
    obtain ⟨index', hstep⟩ := matches_word_fails (P := P) (k := k) h0 hne
    have hread : read P (k + 1) (ofPushed (word id index none : Match κ σ τ)) (d :: piece) =
        .ok (ofPushed (word id index' (some false))) := by
      rw [read, characters_tail hb]
      show push P (k + 1) (word id index none) ([d] :: characters piece) >>= _ = _
      rw [push_result hstep (Option.some_ne_none false)]
      rfl
    have hrest : ∀ pieces : List BString,
        pieces.foldlM (read P (k + 1)) (ofPushed (word id index' (some false) : Match κ σ τ)) =
          .ok (ofPushed (word id index' (some false))) := fun pieces => by
      induction pieces with
      | nil => rfl
      | cons piece pieces ih =>
        have hset : read P (k + 1) (ofPushed (word id index' (some false) : Match κ σ τ)) piece =
            .ok (ofPushed (word id index' (some false))) := by
          show push P (k + 1) (word id index' (some false)) (characters piece) >>= _ = _
          rw [push_settled (settled_word index' false)]
          rfl
        rw [List.foldlM_cons, hset, Run.ok_bind, ih]
    exact ⟨index', by rw [List.foldlM_cons, hread, Run.ok_bind, hrest]⟩

/-- Empty pieces are no characters. -/
theorem cutsBetween_nil {pieces : List BString} (h : pieces.flatten = []) :
    CutsBetween [] pieces := by
  refine ⟨pieces.map fun _ => [], by simp, ?_⟩
  rw [List.map_map]
  refine (List.map_congr_left fun piece hp => ?_).trans (List.map_id pieces)
  exact (List.flatten_eq_nil_iff.mp h piece hp).symm

/-- The word of a text notices a cut inside a character. -/
theorem foldlM_read_word {k : ℕ} : ∀ {pieces cs : List BString}, IsText cs →
    pieces.flatten = cs.flatten →
    CutsBetween cs pieces ∨ ∃ index,
      pieces.foldlM (read P (k + 1)) (ofPushed (word id cs.flatten none : Match κ σ τ)) =
        .ok (ofPushed (word id index (some false)))
  | [], cs, hcs, h => by
    obtain rfl := flatten_eq_nil hcs h.symm
    exact Or.inl ⟨[], rfl, rfl⟩
  | piece :: pieces, cs, hcs, h => by
    rw [List.flatten_cons] at h
    obtain ⟨pre, post, part, rfl, rfl, hbeg, -⟩ := split_isPrefix hcs ⟨pieces.flatten, h⟩
    have hpre : IsText pre := fun m hm => hcs m (List.mem_append_left _ hm)
    have hpost : IsText post := fun m hm => hcs m (List.mem_append_right _ hm)
    rw [List.flatten_append, List.append_assoc, List.append_cancel_left_eq] at h
    have hpart : IsPart part := by
      cases hbeg with
      | nil => exact isPart_nil
      | part cs hp hne _ => exact Or.inr ⟨_, hpost _ List.mem_cons_self, hp, hne⟩
    have hread : post.flatten ≠ [] →
      read P (k + 1) (ofPushed (word id (pre ++ post).flatten none : Match κ σ τ))
        (pre.flatten ++ part) = .ok (ofPushed (word id post.flatten none)) := fun hv => by
      rw [read, characters_flatten hpre hpart, List.flatten_append]
      show push P (k + 1) (word id (pre.flatten ++ post.flatten) none) pre >>= _ = _
      rw [push_word hv hpre]
      rfl
    cases hbeg with
    | nil =>
      rw [List.nil_append] at h
      by_cases h0 : post = []
      · subst h0
        obtain ⟨css, hflat, rfl⟩ := cutsBetween_nil h
        exact Or.inl ⟨pre :: css, by rw [List.flatten_cons, hflat], by simp⟩
      · have hv : post.flatten ≠ [] := fun he => h0 (flatten_eq_nil hpost he)
        rcases foldlM_read_word hpost h with ⟨css, rfl, rfl⟩ | ⟨index, hfold⟩
        · exact Or.inl ⟨pre :: css, rfl, by simp⟩
        · exact Or.inr ⟨index, by rw [List.foldlM_cons, hread hv, Run.ok_bind, hfold]⟩
    | @part c part cs hp hne hp0 =>
      -- the next piece begins with a byte of the tail
      have hc : IsChar c := hpost c List.mem_cons_self
      obtain ⟨lead, tail, rfl⟩ := List.exists_cons_of_ne_nil hc.ne_nil
      obtain ⟨lead', part, rfl⟩ := List.exists_cons_of_ne_nil hp0
      obtain ⟨r, hr⟩ := hp
      obtain rfl : lead' = lead := (List.cons.inj hr).1
      obtain rfl : part ++ r = tail := (List.cons.inj hr).2
      obtain ⟨b, r, rfl⟩ := List.exists_cons_of_ne_nil (fun he => hne (by simp [he]) : r ≠ [])
      have hb : IsTail b := hc.tail b (by simp)
      have hflat : pieces.flatten = b :: (r ++ cs.flatten) := by simpa using h
      have hv : ((lead' :: (part ++ b :: r)) :: cs).flatten ≠ [] := nofun
      have hlead : lead' ≠ b := by
        rintro rfl
        have hw := hc.width
        rw [List.head_cons, width_tail hb] at hw
        cases hw
      obtain ⟨index, hfold⟩ := foldlM_read_tail (P := P) (k := k) (σ := σ) (τ := τ) hb hv
        (by simpa using hlead.symm) hflat
      exact Or.inr ⟨index, by rw [List.foldlM_cons, hread hv, Run.ok_bind, hfold]⟩

/-- A grammar without parts of its own. -/
def noGrammar : Program κ σ τ φ :=
  ⟨fun _ => word id [] none, fun _ _ self => .ok self, fun _ => true⟩

theorem noGrammar_plain : (noGrammar : Program κ σ τ φ).Plain :=
  ⟨fun _ => .word _ _ _, fun _ => rfl⟩

theorem isChar_e : IsChar [0xC3, 0xA9] :=
  ⟨by decide +kernel, by decide +kernel, by decide +kernel, by decide +kernel⟩

theorem characters_a_half : characters [0x61, 0xC3] = [[0x61]] :=
  characters_flatten (show IsText [[0x61]] from List.forall_mem_singleton.mpr
    (isChar_ascii (by decide)))
    (Or.inr ⟨_, isChar_e, ⟨[0xA9], rfl⟩, by decide⟩)

/-- A character that is not taken ends the reading of its piece only, so a cut
between two characters can be noticed too. -/
theorem readPieces_untaken :
    ¬ ∀ (P : Program Unit Unit Unit Unit) (fuel : ℕ) (m : Match Unit Unit Unit), P.Plain → Waits m →
    readPieces P fuel (ofMatch m) [[0x61], [0x62]] = readPieces P fuel (ofMatch m)
      [[0x61, 0x62]] := by
  intro h
  have ha : IsChar [0x61] := isChar_ascii (by decide)
  have hb : IsChar [0x62] := isChar_ascii (by decide)
  have h1 : characters [0x61] = [[0x61]] :=
    characters_text (show IsText [[0x61]] from List.forall_mem_singleton.mpr ha)
  have h2 : characters [0x62] = [[0x62]] :=
    characters_text (show IsText [[0x62]] from List.forall_mem_singleton.mpr hb)
  have h3 : characters [0x61, 0x62] = [[0x61], [0x62]] :=
    characters_text (show IsText [[0x61], [0x62]] from List.forall_mem_cons.mpr
      ⟨ha, List.forall_mem_singleton.mpr hb⟩)
  have hplain : (optional (character (some [0x62]) none) none : Match Unit Unit Unit).Plain :=
    .optional (.character _ _) _
  have hall :=
    h noGrammar 4
    (capture (fun _ => true) [] (repeated (optional (character (some [0x62]) none) none)
    none 1 0 0 none) none) noGrammar_plain
      ⟨.capture _ _ (.repeated hplain rfl (by simp) _ _ _ _) _, rfl⟩
  simp only [readPieces, List.foldlM_cons, read, h1, h2, h3] at hall
  have hvalue : (some (.ok [0x62]) : Option (Except Unit BString)) = some (.ok []) :=
    congrArg (Option.map (Except.map fun p : Parser Unit Unit Unit => p.match_.value)) hall
  simp at hvalue

end Parser

end BeeFish
