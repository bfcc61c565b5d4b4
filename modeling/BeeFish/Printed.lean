/-
# The node that a URL shows

`JSONPath::toString` prints the URL of a node, or of the node that holds the
`{HTTP}` property above it. `toKey` goes up at such a property too, but to the
parent of the node that holds it, and starts again there. So the id of a node
has the index of the node whose URL is printed exactly when there is no such
property, or those nearest to the user come in pairs (`getIndexFromId_printed`).
And `toString` cuts the URL at the text `{HTTP}`, also inside a longer key
(`toString_printed`).

Key definitions: `JSONPath.printed`, `JSONPath.url`, `topRun`, `HttpInside`.
-/
import BeeFish.JSONKey
import BeeFish.Pages

namespace BeeFish

/-! ### The node that is printed -/

/-- The node that holds the `{HTTP}` property nearest to the user. -/
def holder : List (Component × ℕ) → Option (List (Component × ℕ))
  | [] => none
  | (key, _) :: path =>
    match holder path with
    | some node => some node
    | none => if 2 ≤ path.length ∧ key = .string (text "{HTTP}") then some path else none

/-- The node itself if there is no `{HTTP}` property on its way, and otherwise
the one that holds it. -/
def JSONPath.printed (path : JSONPath) : JSONPath :=
  { path with steps := (holder path.steps).getD path.steps }

/-- The keys below the user, down to the node. -/
def belowUser (steps : List (Component × ℕ)) : List Component := (steps.map Prod.fst).reverse.drop 2

/-- The first row of `{HTTP}` properties, in any letter case, directly below
each other. -/
def topRun (L : Locale) (steps : List (Component × ℕ)) : List Component :=
  ((belowUser steps).dropWhile fun key => !isHttp L key).takeWhile (isHttp L)

variable {L : Locale}

/-- No `{HTTP}` property below the user and the origin, which are the last two
steps. -/
theorem redirect_none {user origin : Component × ℕ} : ∀ {a : List (Component × ℕ)},
    (∀ s ∈ a, isHttp L s.1 = false) →
    redirect L (a ++ [user, origin]) = none
  | [], _ => rfl
  | s :: a, h => by
    obtain ⟨t, u, path, hpath⟩ : ∃ t u path, a ++ [user, origin] = t :: u :: path := by
      match a with
      | [] => exact ⟨_, _, _, rfl⟩
      | [b] => exact ⟨_, _, _, rfl⟩
      | b :: c :: a => exact ⟨_, _, _, rfl⟩
    rw [List.cons_append, hpath, redirect, if_neg (by rw [h s List.mem_cons_self]; simp), ← hpath]
    exact redirect_none fun s hs => h s (List.mem_cons_of_mem _ hs)

theorem redirect_drop {user origin : Component × ℕ} {a : List (Component × ℕ)}
    (h : ∀ s ∈ a, isHttp L s.1 = false) (n : ℕ)
    (hn : n ≤ 1) : redirect L ((a ++ [user, origin]).drop n) = none := by
  match n, a with
  | 0, _ => exact redirect_none h
  | 1, [] => rfl
  | 1, s :: a => exact redirect_none fun s hs => h s (List.mem_cons_of_mem _ hs)

theorem resolve_cons (s : Component × ℕ) {rest : List (Component × ℕ)} (h : 2 ≤ rest.length) :
    resolve L (s :: rest) =
    if isHttp L s.1 then resolve L rest.tail
    else if (redirect L rest).isSome then resolve L rest else s :: rest := by
  match rest, h with
  | t :: u :: path, _ => rw [resolve]; rfl

theorem redirect_cons (s : Component × ℕ) {rest : List (Component × ℕ)} (h : 2 ≤ rest.length) :
    redirect L (s :: rest) =
    if isHttp L s.1 then some rest.tail else redirect L rest := by
  match rest, h with
  | t :: u :: path, _ => rw [redirect]; rfl

theorem redirect_isSome {rest : List (Component × ℕ)} (hrest : 2 ≤ rest.length) :
    ∀ {pre : List (Component × ℕ)},
    (∃ s ∈ pre, isHttp L s.1 = true) → (redirect L (pre ++ rest)).isSome = true
  | [], ⟨_, hs, _⟩ => nomatch hs
  | s :: pre, ⟨t, ht, hhttp⟩ => by
    have hlen : 2 ≤ (pre ++ rest).length := by
      rw [List.length_append]
      omega
    rw [List.cons_append, redirect_cons s hlen]
    split_ifs with hs
    · rfl
    · rcases List.mem_cons.mp ht with rfl | ht
      · exact absurd hhttp hs
      · exact redirect_isSome hrest ⟨t, ht, hhttp⟩

/-- A row of `{HTTP}` properties is gone through in pairs. -/
theorem resolve_run {user origin : Component × ℕ} {a : List (Component × ℕ)}
    (ha : ∀ s ∈ a, isHttp L s.1 = false) :
    ∀ {r : List (Component × ℕ)}, (∀ s ∈ r, isHttp L s.1 = true) →
      resolve L (r ++ (a ++ [user, origin])) = (a ++ [user, origin]).drop (r.length % 2)
  | [], _ => resolve_of_none (redirect_none ha)
  | [s], h => by
    rw [List.singleton_append, resolve_cons s (by simp), if_pos (h s List.mem_cons_self)]
    show resolve L (a ++ [user, origin]).tail = (a ++ [user, origin]).drop 1
    rw [← List.drop_one]
    exact resolve_of_none (redirect_drop ha 1 (Nat.le_refl 1))
  | s :: t :: r, h => by
    have ih : resolve L (r ++ (a ++ [user, origin])) = (a ++ [user, origin]).drop (r.length % 2) :=
      resolve_run ha fun s hs => h s (List.mem_cons_of_mem _ (List.mem_cons_of_mem _ hs))
    have hlen : 2 ≤ (t :: r ++ (a ++ [user, origin])).length := by
      simp only [List.length_append, List.length_cons, List.length_nil]
      omega
    rw [List.cons_append, resolve_cons s hlen, if_pos (h s List.mem_cons_self)]
    calc resolve L (r ++ (a ++ [user, origin])) = (a ++ [user, origin]).drop (r.length % 2) := ih
      _ = (a ++ [user, origin]).drop ((s :: t :: r).length % 2) := by
        rw [List.length_cons, List.length_cons, Nat.add_assoc, Nat.add_mod_right]

/-- Below the row the other properties do not matter. -/
theorem resolve_below {user origin : Component × ℕ} {a r : List (Component × ℕ)}
    (ha : ∀ s ∈ a, isHttp L s.1 = false)
    (hr : ∀ s ∈ r, isHttp L s.1 = true) (hr0 : r ≠ []) : ∀ {c : List (Component × ℕ)},
      (∀ s ∈ c.getLast?, isHttp L s.1 = false) →
      resolve L (c ++ (r ++ (a ++ [user, origin]))) = (a ++ [user, origin]).drop (r.length % 2)
  | [], _ => resolve_run ha hr
  | s :: c, h => by
    have hrest : 2 ≤ (a ++ [user, origin]).length := by simp
    have hlen : 2 ≤ (c ++ (r ++ (a ++ [user, origin]))).length := by
      rw [List.length_append, List.length_append]
      omega
    have hsome : (redirect L (c ++ (r ++ (a ++ [user, origin])))).isSome = true := by
      rw [← List.append_assoc]
      obtain ⟨t, ht⟩ := List.exists_mem_of_ne_nil r hr0
      exact redirect_isSome hrest ⟨t, List.mem_append_right _ ht, hr t ht⟩
    rw [List.cons_append, resolve_cons s hlen]
    cases c with
    | nil =>
      rw [if_neg (by rw [h s rfl]; simp), if_pos hsome]
      exact resolve_run ha hr
    | cons t c =>
      have htail : ∀ s ∈ (t :: c).getLast?, isHttp L s.1 = false := by simpa using h
      by_cases hs : isHttp L s.1 = true
      · rw [if_pos hs]
        refine resolve_below ha hr hr0 (c := c) ?_
        cases c with
        | nil => nofun
        | cons u c => simpa using h
      · rw [if_neg hs, if_pos hsome]
        exact resolve_below ha hr hr0 htail

/-! ### The rows of the keys -/

/-- The steps of a node below the first row, in the row, above it, and the user
and the origin. -/
theorem exists_rows {steps : List (Component × ℕ)} (h : 2 ≤ steps.length) : ∃ c r a user origin,
    steps = c ++ (r ++ (a ++ [user, origin])) ∧ (∀ s ∈ a, isHttp L s.1 = false) ∧
      (∀ s ∈ r, isHttp L s.1 = true) ∧
      (∀ s ∈ c.getLast?, isHttp L s.1 = false) ∧ topRun L steps = (r.map Prod.fst).reverse ∧
        (r = [] → c = []) := by
  obtain ⟨b, user, origin, rfl⟩ : ∃ b user origin, steps = b ++ [user, origin] := by
    obtain ⟨l, origin, rfl⟩ := List.eq_nil_or_concat steps |>.resolve_left
      (by rintro rfl; simp at h)
    obtain ⟨b, user, rfl⟩ := List.eq_nil_or_concat l |>.resolve_left (by rintro rfl; simp at h)
    exact ⟨b, user, origin, by simp⟩
  let q : Component × ℕ → Bool := fun s => !isHttp L s.1
  let q' : Component × ℕ → Bool := fun s => isHttp L s.1
  have ha : b.reverse.takeWhile q ++ b.reverse.dropWhile q = b.reverse :=
    List.takeWhile_append_dropWhile
  have hr :
      (b.reverse.dropWhile q).takeWhile q' ++ (b.reverse.dropWhile q).dropWhile q' =
        b.reverse.dropWhile q :=
    List.takeWhile_append_dropWhile
  have hb : b = ((b.reverse.dropWhile q).dropWhile q').reverse ++
    (((b.reverse.dropWhile q).takeWhile q').reverse ++
      (b.reverse.takeWhile q).reverse) := by
    rw [← List.append_assoc, ← List.reverse_append, hr, ← List.reverse_append, ha,
      List.reverse_reverse]
  refine ⟨((b.reverse.dropWhile q).dropWhile q').reverse,
    ((b.reverse.dropWhile q).takeWhile q').reverse,
    (b.reverse.takeWhile q).reverse, user, origin, ?_, ?_, ?_, ?_, ?_, ?_⟩
  · rw [← List.append_assoc, ← List.append_assoc, List.append_assoc _ _
      (b.reverse.takeWhile q).reverse, ← hb]
  · intro s hs
    have hq : q s = true := List.all_eq_true.mp List.all_takeWhile s (List.mem_reverse.mp hs)
    simpa [q] using hq
  · intro s hs
    exact List.all_eq_true.mp List.all_takeWhile s (List.mem_reverse.mp hs)
  · intro s hs
    rw [List.getLast?_reverse] at hs
    have := List.head?_dropWhile_not q' (b.reverse.dropWhile q)
    rw [hs] at this
    exact this
  · unfold topRun belowUser
    have hkeys : ((b ++ [user, origin]).map Prod.fst).reverse.drop 2 = b.reverse.map Prod.fst := by
      simp
    rw [hkeys, List.dropWhile_map, List.takeWhile_map, ← List.map_reverse, List.reverse_reverse]
    rfl
  · intro h0
    rw [List.reverse_eq_nil_iff] at h0 ⊢
    cases hd : b.reverse.dropWhile q with
    | nil => rfl
    | cons s d =>
      have hnot := List.head?_dropWhile_not q b.reverse
      rw [hd] at h0 hnot
      have hs : isHttp L s.1 = true := by simpa [q] using hnot
      simp [q', hs] at h0

/-! ### The holder -/

/-- The key `{HTTP}` itself, below the user. -/
def isHolder (s : Component × ℕ) (path : List (Component × ℕ)) : Prop :=
  2 ≤ path.length ∧ s.1 = .string (text "{HTTP}")

instance (s : Component × ℕ) (path : List (Component × ℕ)) : Decidable (isHolder s path) :=
  inferInstanceAs (Decidable (_ ∧ _))

theorem holder_cons (s : Component × ℕ) (path : List (Component × ℕ)) :
    holder (s :: path) = (holder path).or (if isHolder s path then some path else none) := by
  obtain ⟨key, index⟩ := s
  rw [holder]
  cases holder path <;> rfl

theorem holder_append {rest node : List (Component × ℕ)} (h : holder rest = some node) :
    ∀ pre : List (Component × ℕ), holder (pre ++ rest) = some node
  | [] => h
  | s :: pre => by rw [List.cons_append, holder_cons, holder_append h pre, Option.some_or]

/-- Where there is no holder above, one is below. -/
theorem length_holder {rest : List (Component × ℕ)} (h : holder rest = none) :
    ∀ {pre node : List (Component × ℕ)},
    holder (pre ++ rest) = some node → rest.length ≤ node.length
  | [], _, hnode => by
    rw [List.nil_append, h] at hnode
    cases hnode
  | s :: pre, node, hnode => by
    rw [List.cons_append, holder_cons] at hnode
    cases hpre : holder (pre ++ rest) with
    | some n =>
      rw [hpre, Option.some_or] at hnode
      rw [← Option.some.inj hnode]
      exact length_holder h hpre
    | none =>
      rw [hpre, Option.none_or] at hnode
      split_ifs at hnode
      rw [← Option.some.inj hnode, List.length_append]
      omega

theorem holder_isSuffix : ∀ {steps node : List (Component × ℕ)}, holder steps = some node →
    node <:+ steps
  | s :: path, node, h => by
    rw [holder_cons] at h
    cases hpath : holder path with
    | some n =>
      rw [hpath, Option.some_or] at h
      rw [← Option.some.inj h]
      exact (holder_isSuffix hpath).trans (List.suffix_cons s path)
    | none =>
      rw [hpath, Option.none_or] at h
      split_ifs at h
      rw [← Option.some.inj h]
      exact List.suffix_cons s path

theorem isHttp_holder (hlower : L.toLower (text "{HTTP}") = text "{http}") :
    isHttp L (.string (text "{HTTP}")) = true := by
  have hdigits : BString.isDigitsOnly (text "{HTTP}") = false := by decide
  simp [isHttp, lowerKey, hdigits, hlower]

theorem holder_none (hlower : L.toLower (text "{HTTP}") = text "{http}")
    {user origin : Component × ℕ} :
    ∀ {a : List (Component × ℕ)}, (∀ s ∈ a, isHttp L s.1 = false) →
      holder (a ++ [user, origin]) = none
  | [], _ => rfl
  | s :: a, h => by
    have hs : ¬ isHolder s (a ++ [user, origin]) := by
      rintro ⟨-, hkey⟩
      have := h s List.mem_cons_self
      rw [hkey, isHttp_holder hlower] at this
      cases this
    rw [List.cons_append, holder_cons, holder_none hlower fun t ht =>
      h t (List.mem_cons_of_mem _ ht), if_neg hs]
    rfl

theorem exists_of_holder : ∀ {steps node : List (Component × ℕ)}, holder steps = some node →
    ∃ pre s, steps = pre ++ s :: node ∧ isHolder s node ∧ holder node = none
  | s :: path, node, h => by
    rw [holder_cons] at h
    cases hpath : holder path with
    | some n =>
      rw [hpath, Option.some_or] at h
      obtain ⟨pre, t, rfl, ht⟩ := exists_of_holder (hpath.trans h)
      exact ⟨s :: pre, t, rfl, ht⟩
    | none =>
      rw [hpath, Option.none_or] at h
      split_ifs at h with hs
      obtain rfl := Option.some.inj h
      exact ⟨[], s, rfl, hs, hpath⟩

/-! ### The URL -/

namespace BString

variable {pattern : BString}

theorem find_eq_none (h0 : pattern ≠ []) : ∀ {s : BString}, find pattern s = none ↔ ¬ pattern <:+: s
  | [] => by simp [find, h0]
  | c :: s => by
    rw [find, List.infix_cons_iff, ← List.isPrefixOf_iff_prefix]
    split_ifs with hpre
    · exact iff_of_false nofun fun h => h (Or.inl hpre)
    · rw [Option.map_eq_none_iff, find_eq_none h0, or_iff_right hpre]

theorem find_self (pattern t : BString) : find pattern (pattern ++ t) = some 0 := by
  cases h : pattern ++ t with
  | nil => rw [find, if_pos (List.append_eq_nil_iff.mp h).1]
  | cons c s => rw [find, if_pos (List.isPrefixOf_iff_prefix.mpr ⟨t, h⟩)]

theorem add_length_le_of_find : ∀ {s : BString} {n : ℕ}, find pattern s = some n →
    n + pattern.length ≤ s.length
  | [], n, h => by
    rw [find] at h
    split_ifs at h with h0
    rw [h0, ← Option.some.inj h]
    exact Nat.le_refl 0
  | c :: s, n, h => by
    rw [find] at h
    split_ifs at h with hpre
    · rw [← Option.some.inj h, Nat.zero_add]
      exact (List.isPrefixOf_iff_prefix.mp hpre).length_le
    · obtain ⟨m, hm, rfl⟩ := Option.map_eq_some_iff.mp h
      have := add_length_le_of_find hm
      rw [List.length_cons]
      omega

/-- The first one stays the first. -/
theorem find_append : ∀ {s : BString} {n : ℕ}, find pattern s = some n →
    ∀ t, find pattern (s ++ t) = some n
  | [], n, h, t => by
    rw [find] at h
    split_ifs at h with h0
    rw [List.nil_append, h0, ← h]
    exact find_self [] t
  | c :: s, n, h, t => by
    rw [find] at h
    rw [List.cons_append, find]
    split_ifs at h with hpre
    · have hlonger : pattern.isPrefixOf (c :: (s ++ t)) :=
        List.isPrefixOf_iff_prefix.mpr
          ((List.isPrefixOf_iff_prefix.mp hpre).trans (List.prefix_append (c :: s) t))
      rw [if_pos hlonger, h]
    · obtain ⟨m, hm, rfl⟩ := Option.map_eq_some_iff.mp h
      have hnot : ¬ pattern.isPrefixOf (c :: (s ++ t)) := by
        intro hlonger
        have hlen : pattern.length ≤ (c :: s).length := by
          have := add_length_le_of_find hm
          rw [List.length_cons]
          omega
        exact hpre (List.isPrefixOf_iff_prefix.mpr (List.prefix_of_prefix_length_le
          (List.isPrefixOf_iff_prefix.mp hlonger) (List.prefix_append (c :: s) t) hlen))
      rw [if_neg hnot, find_append hm t]
      rfl

theorem find_eq_zero (h0 : pattern ≠ []) {s : BString} : find pattern s = some 0 ↔
    pattern <+: s := by
  cases s with
  | nil => simp [find, h0]
  | cons c s =>
    rw [find, ← List.isPrefixOf_iff_prefix]
    split_ifs with hpre
    · exact iff_of_true rfl hpre
    · refine iff_of_false (fun h => ?_) hpre
      obtain ⟨m, -, hm⟩ := Option.map_eq_some_iff.mp h
      exact absurd hm (Nat.succ_ne_zero m)

theorem prefix_slash (hslash : 47 ∉ pattern) {s t : BString} (h : pattern <+: s ++ 47 :: t) :
    pattern <+: s := by
  have hs : s ++ [47] <+: s ++ 47 :: t := ⟨t, by simp⟩
  rcases List.prefix_or_prefix_of_prefix h hs with hle | hge
  · rcases List.prefix_concat_iff.mp hle with heq | hle
    · exact absurd (by rw [heq]; simp) hslash
    · exact hle
  · exact absurd (hge.subset (by simp)) hslash

/-- The pattern has no slash, so it is found in one part or in the other. -/
theorem find_slash (h0 : pattern ≠ []) (hslash : 47 ∉ pattern) (t : BString) : ∀ {s : BString},
    ¬ pattern <:+: s →
    find pattern (s ++ 47 :: t) = (find pattern t).map (· + (s ++ [47]).length)
  | [], _ => by
    have hpre : ¬ pattern.isPrefixOf (47 :: t) := fun hpre =>
      h0 (List.prefix_nil.mp (prefix_slash hslash (s := []) (List.isPrefixOf_iff_prefix.mp hpre)))
    rw [List.nil_append, find, if_neg hpre]
    rfl
  | c :: s, h => by
    have hpre : ¬ pattern.isPrefixOf (c :: (s ++ 47 :: t)) := fun hpre =>
      h (prefix_slash hslash (s := c :: s) (List.isPrefixOf_iff_prefix.mp hpre)).isInfix
    have ih := find_slash h0 hslash t fun hs => h (List.infix_cons hs)
    rw [List.cons_append, find, if_neg hpre, ih, Option.map_map]
    rfl

end BString

/-- What `toString` writes for a key that is not that of a user. -/
def shownKey (key : Component) : BString :=
  if key.text ≠ text "my" ∧ key.type = .string ∧ key.text.isDigitsOnly then
    text "\"" ++ key.text ++ text "\""
  else key.text

/-- The text goes on wherever `{HTTP}` is found. -/
def Clear (string : BString) : Prop :=
  ∀ t, BString.find (text "{HTTP}") (string ++ t) = (BString.find (text "{HTTP}") t).map
    (· + string.length)

theorem clear_nil : Clear [] :=
  fun t => (congrFun Option.map_id (BString.find (text "{HTTP}") t)).symm

theorem Clear.append {s t : BString} (hs : Clear s) (ht : Clear t) : Clear (s ++ t) := fun u => by
  rw [List.append_assoc, hs, ht, Option.map_map, List.length_append]
  congr 1
  funext n
  simp only [Function.comp_apply]
  omega

theorem clear_slash {s : BString} (h : BString.find (text "{HTTP}") s = none) :
    Clear (s ++ text "/") :=
  fun t => by
  rw [List.append_assoc]
  exact BString.find_slash (by decide) (by decide) t ((BString.find_eq_none (by decide)).mp h)

theorem Clear.find_dropLast {s : BString} (h : Clear s) :
    BString.find (text "{HTTP}") s.dropLast = none := by
  rw [BString.find_eq_none (by decide)]
  intro hs
  have hempty : BString.find (text "{HTTP}") [] = none := by decide
  have hnone : BString.find (text "{HTTP}") s = none := by
    rw [← List.append_nil s, h, hempty]
    rfl
  exact (BString.find_eq_none (by decide)).mp hnone (hs.trans (List.dropLast_prefix s).isInfix)

theorem find_shownKey {key : Component} (h : BString.find (text "{HTTP}") key.text = none) :
    BString.find (text "{HTTP}") (shownKey key) = none := by
  unfold shownKey
  split_ifs with hdigits
  · rw [BString.find_eq_none (by decide)]
    intro hpart
    have hmem : 123 ∈ text "\"" ++ key.text ++ text "\"" := hpart.subset (by decide)
    have hkey : 123 ∈ key.text := by simpa [text] using hmem
    have hall := hdigits.2.2
    rw [BString.isDigitsOnly, Bool.and_eq_true] at hall
    exact absurd (List.all_eq_true.mp hall.2 123 hkey) (by decide)
  · exact h

variable {userId : BString} {users : BString → Bool}

theorem urlFrom_cons (key : Component) (index : ℕ) (s : Component × ℕ) (path : List (Component × ℕ))
    (string : BString) :
    urlFrom userId users ((key, index) :: s :: path) string =
      if (s :: path).length = 1 ∧ key.text = text "public" then urlFrom userId users
        (s :: path) string
      else if (s :: path).length = 1 ∧ key.text = userId then urlFrom userId users (s :: path)
        (text "my" ++ text "/" ++ string)
      else if (s :: path).length = 1 ∧ users key.text then none
      else urlFrom userId users (s :: path) (shownKey key ++ text "/" ++ string) := by
  rw [urlFrom]
  · rfl
  · simp

theorem urlFrom_ne_nil : ∀ {steps : List (Component × ℕ)} {string url : BString}, steps ≠ [] →
    urlFrom userId users steps string = some url → url ≠ []
  | [_], _, _, _, hurl => by
    rw [← Option.some.inj hurl]
    simp [text]
  | (key, index) :: s :: path, _, _, _, hurl => by
    rw [urlFrom_cons] at hurl
    split_ifs at hurl
    · exact urlFrom_ne_nil (List.cons_ne_nil s path) hurl
    · exact urlFrom_ne_nil (List.cons_ne_nil s path) hurl
    · exact urlFrom_ne_nil (List.cons_ne_nil s path) hurl

/-- The string is put before the one so far. -/
theorem urlFrom_string : ∀ (steps : List (Component × ℕ)) (string : BString),
    urlFrom userId users steps string = (urlFrom userId users steps []).map (· ++ string)
  | [], _ => rfl
  | [_], string => by simp [urlFrom]
  | (key, index) :: s :: path, string => by
    have happend : ∀ t, urlFrom userId users (s :: path) (t ++ string) =
        (urlFrom userId users (s :: path) (t ++ [])).map (· ++ string) := by
      intro t
      rw [urlFrom_string (s :: path) (t ++ string), urlFrom_string (s :: path) (t ++ []),
        Option.map_map]
      simp [Function.comp_def]
    rw [urlFrom_cons, urlFrom_cons]
    split_ifs
    · exact urlFrom_string (s :: path) string
    · exact happend _
    · rfl
    · exact happend _

/-- The text `{HTTP}` is in a key that the URL shows: not in that of the user who
asks, which is shown as `my`. -/
def HttpInside (userId : BString) : List (Component × ℕ) → Prop
  | [] => False
  | (key, _) :: path =>
    HttpInside userId path ∨
      ¬ (path.length = 1 ∧ key.text = userId) ∧ (BString.find (text "{HTTP}") key.text).isSome

instance decidableHttpInside (userId : BString) : (steps : List (Component × ℕ)) →
    Decidable (HttpInside userId steps)
  | [] => isFalse id
  | (_, _) :: path =>
    have := decidableHttpInside userId path
    inferInstanceAs (Decidable (_ ∨ _))

theorem text_infix_shownKey (key : Component) : key.text <:+: shownKey key := by
  unfold shownKey
  split_ifs
  · exact ⟨_, _, rfl⟩
  · exact List.infix_rfl

/-- Without `{HTTP}` in a key that is shown the strings do not contain it. -/
theorem clear_urlFrom : ∀ {steps : List (Component × ℕ)} {string url : BString},
    ¬ HttpInside userId steps → Clear string →
      urlFrom userId users steps string = some url → Clear url
  | [], _, _, _, hstring, hurl => (Option.some.inj hurl) ▸ hstring
  | [(origin, _)], string, _, h, hstring, hurl => by
    rw [← Option.some.inj hurl]
    have horigin : BString.find (text "{HTTP}") origin.text = none := by simpa [HttpInside] using h
    exact (clear_slash horigin).append hstring
  | (key, index) :: s :: path, string, _, h, hstring, hurl => by
    rw [HttpInside, not_or] at h
    have hmy : BString.find (text "{HTTP}") (text "my") = none := by decide
    rw [urlFrom_cons] at hurl
    split_ifs at hurl with hpublic huser
    · exact clear_urlFrom h.1 hstring hurl
    · exact clear_urlFrom h.1 ((clear_slash hmy).append hstring) hurl
    · have hkey : BString.find (text "{HTTP}") key.text = none := by
        simpa using fun hsome => h.2 ⟨huser, hsome⟩
      exact clear_urlFrom h.1 ((clear_slash (find_shownKey hkey)).append hstring) hurl

/-- And with it they do. -/
theorem infix_urlFrom : ∀ {steps : List (Component × ℕ)} {string url : BString},
    HttpInside userId steps → urlFrom userId users steps string = some url → text "{HTTP}" <:+: url
  | [(origin, _)], string, _, h, hurl => by
    have horigin : (BString.find (text "{HTTP}") origin.text).isSome := by
      simpa [HttpInside] using h
    have hpart : text "{HTTP}" <:+: origin.text := by
      by_contra hnot
      rw [(BString.find_eq_none (by decide)).mpr hnot] at horigin
      cases horigin
    rw [← Option.some.inj hurl, List.append_assoc]
    exact hpart.trans (List.prefix_append _ _).isInfix
  | (key, index) :: s :: path, string, url, h, hurl => by
    rw [urlFrom_cons] at hurl
    rw [HttpInside] at h
    rcases h with hpath | ⟨hown, hkey⟩
    · split_ifs at hurl
      · exact infix_urlFrom hpath hurl
      · exact infix_urlFrom hpath hurl
      · exact infix_urlFrom hpath hurl
    · split_ifs at hurl with hpublic
      · rw [hpublic.2] at hkey
        exact absurd hkey (by decide)
      · have hpart : text "{HTTP}" <:+: key.text := by
          by_contra hnot
          rw [(BString.find_eq_none (by decide)).mpr hnot] at hkey
          cases hkey
        rw [urlFrom_string] at hurl
        obtain ⟨u, -, rfl⟩ := Option.map_eq_some_iff.mp hurl
        rw [List.append_assoc]
        exact (hpart.trans (text_infix_shownKey key)).trans ⟨u, _, by rw [List.append_assoc]⟩

/-- Below the user a key is only put at the end. -/
theorem urlFrom_append {s : Component × ℕ} {node : List (Component × ℕ)} (hlen : 2 ≤ node.length) :
    ∀ (pre : List (Component × ℕ)) (string : BString), ∃ t, urlFrom userId users
      (pre ++ s :: node) string =
      urlFrom userId users node (shownKey s.1 ++ text "/" ++ t)
  | [], string => by
    obtain ⟨key, index⟩ := s
    obtain ⟨t, u, path, rfl⟩ : ∃ t u path, node = t :: u :: path := by
      match node, hlen with
      | t :: u :: path, _ => exact ⟨t, u, path, rfl⟩
    exact ⟨string, by rw [List.nil_append, urlFrom_cons]; simp⟩
  | (key, index) :: pre, string => by
    obtain ⟨t, u, v, path, hpath⟩ : ∃ t u v path, pre ++ s :: node = t :: u :: v :: path := by
      match h : pre ++ s :: node with
      | t :: u :: v :: path => exact ⟨t, u, v, path, rfl⟩
      | [] | [_] | [_, _] =>
        have := congrArg List.length h
        rw [List.length_append, List.length_cons] at this
        simp only [List.length_cons, List.length_nil] at this
        omega
    have ih := urlFrom_append (s := s) hlen pre (shownKey key ++ text "/" ++ string)
    rw [hpath] at ih
    rw [List.cons_append, hpath, urlFrom_cons]
    simpa using ih

/-- The URL of a node, in full. -/
def JSONPath.url (auth : Authentication) (users : BString → Bool) (path : JSONPath) : BString :=
  ((urlFrom auth.userId users path.steps []).map List.dropLast).getD []

/-- The node is one of another user, whose URL is not shown. -/
def JSONPath.Foreign (auth : Authentication) (users : BString → Bool) (path : JSONPath) : Prop :=
  ∃ user ∈ (path.steps.map Prod.fst).reverse[1]?,
    user.text ≠ text "public" ∧ user.text ≠ auth.userId ∧ users user.text = true

theorem urlFrom_eq_none : ∀ {steps : List (Component × ℕ)} {string : BString},
    urlFrom userId users steps string = none ↔
    ∃ user ∈ (steps.map Prod.fst).reverse[1]?, user.text ≠ text "public" ∧ user.text ≠ userId ∧
      users user.text = true
  | [], _ => by simp [urlFrom]
  | [(origin, _)], _ => by simp [urlFrom]
  | [(key, _), (origin, _)], string => by
    rw [urlFrom_cons]
    split_ifs with hpublic hown hother
    · refine iff_of_false nofun ?_
      rintro ⟨user, huser, hnot, -⟩
      exact hnot ((Option.some.inj huser) ▸ hpublic.2)
    · refine iff_of_false nofun ?_
      rintro ⟨user, huser, -, hnot, -⟩
      exact hnot ((Option.some.inj huser) ▸ hown.2)
    · exact iff_of_true rfl ⟨key, rfl, fun h => hpublic ⟨rfl, h⟩, fun h => hown ⟨rfl, h⟩, hother.2⟩
    · refine iff_of_false nofun ?_
      rintro ⟨user, huser, -, -, husers⟩
      rw [← Option.some.inj huser] at husers
      exact hother ⟨rfl, husers⟩
  | (key, index) :: s :: t :: path, string => by
    have hsecond : (((key, index) :: s :: t :: path).map Prod.fst).reverse[1]? =
        ((s :: t :: path).map Prod.fst).reverse[1]? := by
      rw [List.map_cons, List.reverse_cons, List.getElem?_append_left (by simp)]
    rw [urlFrom_cons, if_neg (by simp), if_neg (by simp), if_neg (by simp), hsecond]
    exact urlFrom_eq_none

/-- A URL ends with a slash. -/
theorem exists_urlFrom : ∀ {steps : List (Component × ℕ)} {string url : BString}, steps ≠ [] →
    urlFrom userId users steps string = some url → ∃ d, url = d ++ text "/" ++ string
  | [(origin, _)], _, _, _, hurl => ⟨origin.text, (Option.some.inj hurl).symm⟩
  | (key, index) :: s :: path, string, _, _, hurl => by
    rw [urlFrom_cons] at hurl
    split_ifs at hurl
    · exact exists_urlFrom (List.cons_ne_nil s path) hurl
    · obtain ⟨d, rfl⟩ := exists_urlFrom (List.cons_ne_nil s path) hurl
      exact ⟨d ++ text "/" ++ text "my", by simp⟩
    · obtain ⟨d, rfl⟩ := exists_urlFrom (List.cons_ne_nil s path) hurl
      exact ⟨d ++ text "/" ++ shownKey key, by simp⟩

/-- And starts with the origin. -/
theorem exists_origin : ∀ {steps : List (Component × ℕ)} {string url : BString}, steps ≠ [] →
    urlFrom userId users steps string = some url → ∃ origin ∈ steps.getLast?, ∃ t,
      url = origin.1.text ++ text "/" ++ t
  | [(origin, index)], string, _, _, hurl =>
    ⟨(origin, index), rfl, string, (Option.some.inj hurl).symm⟩
  | (key, index) :: s :: path, string, _, _, hurl => by
    rw [urlFrom_cons] at hurl
    rw [List.getLast?_cons_cons]
    split_ifs at hurl
    · exact exists_origin (List.cons_ne_nil s path) hurl
    · exact exists_origin (List.cons_ne_nil s path) hurl
    · exact exists_origin (List.cons_ne_nil s path) hurl

theorem find_urlFrom {steps : List (Component × ℕ)} {d : BString}
    (hurl : urlFrom userId users steps [] = some (d ++ text "/")) :
    BString.find (text "{HTTP}") d = none ↔ ¬ HttpInside userId steps := by
  constructor
  · intro hd hinside
    have hwhole : BString.find (text "{HTTP}") (d ++ text "/") = none := by
      rw [← List.append_nil (d ++ text "/"), clear_slash hd, show BString.find (text "{HTTP}") [] =
        none by decide]
      rfl
    exact (BString.find_eq_none (by decide)).mp hwhole (infix_urlFrom hinside hurl)
  · intro hnot
    have hclear := (clear_urlFrom hnot clear_nil hurl).find_dropLast
    simpa [text] using hclear

theorem toString_eq (auth : Authentication) (users : BString → Bool) (path : JSONPath) :
    path.toString auth users =
    match BString.find (text "{HTTP}") (path.url auth users) with
    | some (position + 1) => (path.url auth users).take position
    | _ => path.url auth users := by
  unfold JSONPath.toString JSONPath.url
  cases urlFrom auth.userId users path.steps [] with
  | none => rfl
  | some url => rfl

/-- Cut off is what is not shown in full. -/
theorem toString_eq_url_iff (auth : Authentication) (users : BString → Bool) (path : JSONPath) :
    path.toString auth users = path.url auth users ↔
      BString.find (text "{HTTP}") (path.url auth users) = none ∨ BString.find (text "{HTTP}")
        (path.url auth users) = some 0 := by
  rw [toString_eq]
  rcases h : BString.find (text "{HTTP}") (path.url auth users) with _ | _ | position
  · simp
  · simp
  · have hlen := BString.add_length_le_of_find h
    simp only [List.take_eq_self_iff, reduceCtorEq, Option.some.injEq, Nat.add_eq_zero_iff,
      Nat.one_ne_zero, and_false, or_self,
      iff_false, Nat.not_le]
    omega

/-- Where the property is not above the node. -/
theorem toString_of_none (auth : Authentication) {users : BString → Bool} {path : JSONPath}
    (hforeign : ¬ path.Foreign auth users) :
    path.toString auth users = path.url auth users ↔ ¬ HttpInside auth.userId path.steps ∨
      ∃ origin ∈ path.steps.getLast?, text "{HTTP}" <+: origin.1.text := by
  obtain ⟨steps, root⟩ := path
  rw [toString_eq_url_iff]
  by_cases hnil : steps = []
  · subst hnil
    exact iff_of_true (Or.inl rfl) (Or.inl id)
  obtain ⟨url, hurl⟩ := Option.ne_none_iff_exists'.mp fun hnone =>
    hforeign (urlFrom_eq_none.mp hnone)
  obtain ⟨d, hd⟩ := exists_urlFrom hnil hurl
  rw [List.append_nil] at hd
  subst hd
  obtain ⟨origin, horigin, t, ht⟩ := exists_origin hnil hurl
  have hshown : (⟨steps, root⟩ : JSONPath).url auth users = d := by
    simp [JSONPath.url, hurl, text]
  rw [hshown, find_urlFrom hurl]
  refine or_congr Iff.rfl ?_
  have hprefix : text "{HTTP}" <+: d ↔ text "{HTTP}" <+: origin.1.text := by
    have hslash : 47 ∉ text "{HTTP}" := by decide
    have heq : d ++ 47 :: [] = origin.1.text ++ 47 :: t := by
      rw [List.append_assoc] at ht
      exact ht
    constructor
    · exact fun h => BString.prefix_slash hslash (heq ▸ h.trans (List.prefix_append d _))
    · exact fun h => BString.prefix_slash hslash
        (heq ▸ h.trans (List.prefix_append origin.1.text _))
  rw [BString.find_eq_zero (by decide), hprefix]
  simp [Option.mem_def.mp horigin]

theorem foreign_iff (auth : Authentication) (users : BString → Bool) (path : JSONPath) :
    path.Foreign auth users ↔ urlFrom auth.userId users path.steps [] = none := urlFrom_eq_none.symm

theorem foreign_printed {auth : Authentication} {users : BString → Bool} {path : JSONPath}
    (h : path.Foreign auth users) :
    path.printed.Foreign auth users := by
  obtain ⟨steps, root⟩ := path
  cases hholder : holder steps with
  | none => simpa [JSONPath.printed, hholder] using h
  | some node =>
    obtain ⟨pre, s, rfl, ⟨hlen, -⟩, -⟩ := exists_of_holder hholder
    obtain ⟨t, ht⟩ : ∃ t, urlFrom auth.userId users (pre ++ s :: node) [] =
      urlFrom auth.userId users node (shownKey s.1 ++ text "/" ++ t) := urlFrom_append hlen pre []
    rw [urlFrom_string node] at ht
    rw [foreign_iff, ht, Option.map_eq_none_iff] at h
    rw [foreign_iff]
    simpa [JSONPath.printed, hholder] using h

/-- Where it is, the URL is that of the holder exactly when the text is in none of
the keys of the holder. -/
theorem toString_of_holder (auth : Authentication) {users : BString → Bool} {path : JSONPath}
    {node : List (Component × ℕ)}
    (hholder : holder path.steps = some node) (hforeign : ¬ path.Foreign auth users) :
    path.toString auth users = (⟨node, path.root⟩ : JSONPath).url auth users ↔
      ¬ HttpInside auth.userId node := by
  obtain ⟨steps, root⟩ := path
  obtain ⟨pre, s, rfl, ⟨hlen, hkey⟩, -⟩ := exists_of_holder hholder
  obtain ⟨t, ht⟩ : ∃ t, urlFrom auth.userId users (pre ++ s :: node) [] =
      urlFrom auth.userId users node (shownKey s.1 ++ text "/" ++ t) := urlFrom_append hlen pre []
  have hshown : shownKey s.1 = text "{HTTP}" := by
    rw [hkey]
    decide
  rw [hshown, urlFrom_string node] at ht
  rw [foreign_iff, ht, Option.map_eq_none_iff] at hforeign
  obtain ⟨url, hurl⟩ := Option.ne_none_iff_exists'.mp hforeign
  obtain ⟨d, hd⟩ :=
    exists_urlFrom (List.ne_nil_of_length_pos (Nat.lt_of_lt_of_le Nat.two_pos hlen)) hurl
  rw [List.append_nil] at hd
  subst hd
  have hnode : (⟨node, root⟩ : JSONPath).url auth users = d := by
    simp [JSONPath.url, hurl, text]
  have hpath : (⟨pre ++ s :: node, root⟩ : JSONPath).url auth users =
      d ++ text "/" ++ (text "{HTTP}" ++ (text "/" ++ t).dropLast) := by
    rw [JSONPath.url, ht, hurl, Option.map_some, Option.map_some, Option.getD_some,
      List.append_assoc (text "{HTTP}"),
      List.dropLast_append_of_ne_nil (by simp [text]), List.dropLast_append_of_ne_nil
        (by simp [text])]
  rw [toString_eq, hnode, hpath, ← find_urlFrom hurl]
  cases hfind : BString.find (text "{HTTP}") d with
  | none =>
    have hhere :
      BString.find (text "{HTTP}") (d ++ text "/" ++ (text "{HTTP}" ++ (text "/" ++ t).dropLast)) =
        some (d.length + 1) := by
      rw [clear_slash hfind, BString.find_self]
      simp [text]
    refine iff_of_true ?_ rfl
    rw [hhere]
    simp
  | some n =>
    have hhere :
      BString.find (text "{HTTP}") (d ++ text "/" ++ (text "{HTTP}" ++ (text "/" ++ t).dropLast)) =
      some n := by
      rw [List.append_assoc]
      exact BString.find_append hfind _
    have hle := BString.add_length_le_of_find hfind
    have hsix : (text "{HTTP}").length = 6 := by decide
    -- what is shown is longer than the URL, or shorter
    refine iff_of_false (fun heq => ?_) nofun
    rw [hhere] at heq
    have hlength := congrArg List.length heq
    cases n with
    | zero =>
      simp only [List.length_append] at hlength
      omega
    | succ position =>
      simp only [List.length_take, List.length_append] at hlength
      omega

/-- **The URL that is shown.** It is that of the printed node, in full, exactly
when it is not shown at all, no key in it has the text `{HTTP}`, or the origin
starts with it and the node itself is printed. -/
theorem toString_printed (auth : Authentication) (users : BString → Bool) (path : JSONPath) :
    path.toString auth users = path.printed.url auth users ↔ path.Foreign auth users ∨
      ¬ HttpInside auth.userId path.printed.steps ∨
        holder path.steps = none ∧ ∃ origin ∈ path.steps.getLast?, text "{HTTP}" <+:
          origin.1.text := by
  by_cases hforeign : path.Foreign auth users
  · refine iff_of_true ?_ (Or.inl hforeign)
    have hpath : path.url auth users = [] := by
      rw [JSONPath.url, (foreign_iff auth users path).mp hforeign]; rfl
    have hprinted : path.printed.url auth users = [] := by
      rw [JSONPath.url, (foreign_iff auth users _).mp (foreign_printed hforeign)]
      rfl
    rw [toString_eq, hpath, hprinted]
    rfl
  rw [or_iff_right hforeign]
  cases hholder : holder path.steps with
  | none =>
    have hprinted : path.printed = path := by simp [JSONPath.printed, hholder]
    rw [hprinted, toString_of_none auth hforeign]
    simp
  | some node =>
    have hprinted : path.printed = ⟨node, path.root⟩ := by simp [JSONPath.printed, hholder]
    rw [hprinted, toString_of_holder auth hholder hforeign]
    simp

/-! ### The index of the id -/

theorem getElem?_indexes (root : ℕ) (path : List (Component × ℕ)) : ∀ pre : List (Component × ℕ),
    ((pre ++ path).map Prod.snd ++ [root])[pre.length]? = some (JSONPath.indexOf root path)
  | [] => by cases path <;> rfl
  | _ :: pre => getElem?_indexes root path pre

/-- Nodes on one way with one index are the same. -/
theorem length_of_indexOf {root : ℕ} {steps path path' : List (Component × ℕ)}
    (hnodup : (steps.map Prod.snd ++ [root]).Nodup) (h : path <:+ steps) (h' : path' <:+ steps)
    (heq : JSONPath.indexOf root path = JSONPath.indexOf root path') :
    path.length = path'.length := by
  obtain ⟨pre, rfl⟩ := h
  obtain ⟨pre', h'⟩ := h'
  have hpre : ((pre ++ path).map Prod.snd ++ [root])[pre.length]? = _ :=
    getElem?_indexes root path pre
  have hpre' : ((pre ++ path).map Prod.snd ++ [root])[pre'.length]? =
    some (JSONPath.indexOf root path') := by
    rw [← h']
    exact getElem?_indexes root path' pre'
  have hlt : pre.length < ((pre ++ path).map Prod.snd ++ [root]).length := by simp
  have hlen : pre.length = pre'.length :=
    (List.getElem?_inj hlt hnodup).mp (hpre.trans (heq ▸ hpre'.symm))
  have := congrArg List.length h'
  rw [List.length_append, List.length_append] at this
  omega

theorem printed_isSuffix (path : JSONPath) : path.printed.steps <:+ path.steps := by
  unfold JSONPath.printed
  cases h : holder path.steps with
  | none => exact List.suffix_rfl
  | some node => exact holder_isSuffix h

/-- The id leads to the printed node exactly when both ways are as long. -/
theorem getIndexFromId_eq_printed (L : Locale) {path : JSONPath}
    (hnodup : (path.steps.map Prod.snd ++ [path.root]).Nodup) :
    getIndexFromId (toKey L path) = some path.printed.index ↔ (resolve L path.steps).length =
      path.printed.steps.length := by
  rw [getIndexFromId_eq, Option.some_inj]
  constructor
  · exact length_of_indexOf hnodup (resolve_isSuffix path.steps) (printed_isSuffix path)
  · intro hlen
    have hsame : resolve L path.steps = path.printed.steps :=
      (List.suffix_of_suffix_length_le (resolve_isSuffix path.steps) (printed_isSuffix path)
        hlen.le).eq_of_length hlen
    rw [hsame]
    rfl

/-- The index of the id is that of the node that is printed exactly when there is
no `{HTTP}` property, in any letter case, below the user, or the first of them is
in capitals and starts a row of an even number of them, directly below each other. -/
theorem getIndexFromId_printed (L : Locale) (hlower : L.toLower (text "{HTTP}") = text "{http}")
    (path : JSONPath)
    (hnodup : (path.steps.map Prod.snd ++ [path.root]).Nodup) :
    getIndexFromId (toKey L path) = some path.printed.index ↔
      (topRun L path.steps).length % 2 = 0 ∧ ∀ key ∈ (topRun L path.steps).head?, key = .string
      (text "{HTTP}") := by
  rw [getIndexFromId_eq_printed L hnodup]
  obtain ⟨steps, root⟩ := path
  rcases Nat.lt_or_ge steps.length 2 with hshort | hlong
  · match steps, hshort with
    | [], _ => exact iff_of_true rfl ⟨rfl, nofun⟩
    | [_], _ => exact iff_of_true rfl ⟨rfl, nofun⟩
  obtain ⟨c, r, a, user, origin, rfl, ha, hr, hc, hrun, hc0⟩ := exists_rows (L := L) hlong
  have hnone : holder (a ++ [user, origin]) = none := holder_none hlower ha
  rw [hrun]
  rcases List.eq_nil_or_concat r with rfl | ⟨r', t, rfl⟩
  · -- no such property
    obtain rfl := hc0 rfl
    refine iff_of_true ?_ ⟨rfl, nofun⟩
    show (resolve L (a ++ [user, origin])).length =
      ((holder (a ++ [user, origin])).getD (a ++ [user, origin])).length
    rw [hnone, resolve_of_none (redirect_none ha)]
    rfl
  · rw [List.concat_eq_append] at hr ⊢
    have hres : resolve L (c ++ (r' ++ [t] ++ (a ++ [user, origin]))) = (a ++ [user, origin]).drop
      ((r' ++ [t]).length % 2) :=
      resolve_below ha hr (by simp) hc
    have hsplit : c ++ (r' ++ [t] ++ (a ++ [user, origin])) = (c ++ r') ++
      (t :: (a ++ [user, origin])) := by simp
    have hhead : ((r' ++ [t]).map Prod.fst).reverse.head? = some t.1 := by simp
    have hlen : ((r' ++ [t]).map Prod.fst).reverse.length = (r' ++ [t]).length := by simp
    rw [hres, hhead, hlen]
    show ((a ++ [user, origin]).drop ((r' ++ [t]).length % 2)).length =
      ((holder (c ++ (r' ++ [t] ++ (a ++ [user, origin])))).getD
        (c ++ (r' ++ [t] ++ (a ++ [user, origin])))).length ↔ _
    rw [hsplit]
    by_cases hkey : t.1 = .string (text "{HTTP}")
    · -- the first one holds
      have hholder : holder (t :: (a ++ [user, origin])) = some (a ++ [user, origin]) := by
        rw [holder_cons, hnone, Option.none_or, if_pos ⟨by simp, hkey⟩]
      rw [holder_append hholder, Option.getD_some, List.length_drop]
      have hpos : 2 ≤ (a ++ [user, origin]).length := by simp
      constructor
      · intro heq
        exact ⟨by omega, fun key hmem => (Option.some.inj hmem) ▸ hkey⟩
      · rintro ⟨heven, -⟩
        omega
    · -- the one that is printed is further down
      have hholder : holder (t :: (a ++ [user, origin])) = none := by
        rw [holder_cons, hnone, Option.none_or, if_neg fun h => hkey h.2]
      have hlonger : (t :: (a ++ [user, origin])).length ≤
          ((holder ((c ++ r') ++ (t :: (a ++ [user, origin])))).getD
            ((c ++ r') ++ (t :: (a ++ [user, origin])))).length := by
        cases h : holder ((c ++ r') ++ (t :: (a ++ [user, origin]))) with
        | none =>
          rw [Option.getD_none, List.length_append]
          omega
        | some node => exact length_holder hholder h
      refine iff_of_false ?_ fun h => hkey (h.2 t.1 rfl)
      rw [List.length_drop]
      rw [List.length_cons] at hlonger
      omega

end BeeFish
