/-
# Counting the results of a query

`count()` (query/Iterable.hpp) walks over the ids under a path as `setValue`
does, and counts those that do not begin the next one. It goes on from a copy
of its iterator each time, and a copy of a not has lost the count of its stack:
that is no harm where the count is zero, as it is at the end of an id, but a
not that fell behind inside an id goes on wrong. Where none does, `count()` is
the number of results.

With `JSON_INDEX` the ids are indices, and their URLs are compared. There
`count()` counts and then continues with the same iterator, so that it does not
return as soon as there is a result (`count_results`).

Key definitions: `Iterable.count`, `Iterable.countIndex`, `CountsResults`.
-/
import BeeFish.Copies
import BeeFish.Results

namespace BeeFish

open BitCode

section

variable {σ : Type} [PathBase σ]

/-! ### The counts -/

/-- The loop of `Iterable::count`. -/
def Iterable.countFrom (iterable : Iterable σ) : ℕ → IdIterator σ → ℕ → Option ℕ
  | 0, _, _ => none
  | fuel + 1, it, count =>
    match it.item with
    | none => some count
    | some parent => do
      let iterator ← it.copy.next fuel
      let starts ←
        match iterator.item with
        | some child => startsWith ⟨parent.bits, 0, 0⟩ ⟨child.bits, 0, 0⟩
        | none => some false
      iterable.countFrom fuel (it.assign iterator) (if starts then count else count + 1)

/-- `Iterable::count` -/
def Iterable.count (iterable : Iterable σ) (fuel : ℕ) : Option ℕ :=
  (IdIterator.begin fuel iterable.db (PathBase.copy iterable.path)).bind fun it =>
    iterable.countFrom fuel it 0

/-! ### With `JSON_INDEX` -/

/-- `Iterable::toString` of an id that is an index; `url` is what
`JSONPath::toString` gives for the node with the index. -/
def indexString (url : ℕ → Option BString) (id : Key) : Option BString :=
  (decode ⟨id.bits, 0, 0⟩ : Option (ℕ × Stack)).bind fun (index, _) => url index

/-- The loop of `Iterable::count` with `JSON_INDEX`. -/
def Iterable.countIndexFrom (url : ℕ → Option BString) : ℕ → IdIterator σ → ℕ → Option ℕ
  | 0, _, _ => none
  | fuel + 1, it, count =>
    match it.item with
    | none => some count
    | some parent => do
      let parentValue ← indexString url parent
      let iterator ← it.copy.next fuel
      match iterator.item with
      | some child => do
        let childValue ← indexString url child
        -- `continue` skips the line that moves the iterator on
        if !parentValue.isPrefixOf childValue then Iterable.countIndexFrom url fuel it (count + 1)
        else Iterable.countIndexFrom url fuel (it.assign iterator) count
      | none => Iterable.countIndexFrom url fuel it (count + 1)

/-- `Iterable::count` with `JSON_INDEX`. -/
def Iterable.countIndex (iterable : Iterable σ) (url : ℕ → Option BString) (fuel : ℕ) : Option ℕ :=
  (IdIterator.begin fuel iterable.db (PathBase.copy iterable.path)).bind fun it =>
    Iterable.countIndexFrom url fuel it 0

/-- `Iterable::Iterator::setValue` with `JSON_INDEX`. -/
def setValueIndex (url : ℕ → Option BString) : ℕ → IdIterator σ → Option (IdIterator σ × BString)
  | 0, _ => none
  | fuel + 1, it =>
    match it.item with
    | none => some (it, [])
    | some parent => do
      let parentValue ← indexString url parent
      let iterator ← it.copy.next fuel
      match iterator.item with
      | some child => do
        let childValue ← indexString url child
        if !parentValue.isPrefixOf childValue then some (it, parentValue)
        else setValueIndex url fuel (it.assign iterator)
      | none => some (it, parentValue)

/-- The ids from here to the end, with their URLs. -/
def QueryIterator.toEndIndex (url : ℕ → Option BString) : ℕ → QueryIterator σ →
    Option (List (Key × BString))
  | 0, _ => none
  | fuel + 1, it =>
    match it.iterator.item with
    | none => some []
    | some key => do
      let iterator ← it.iterator.next fuel
      let next ← (setValueIndex url fuel iterator).map (QueryIterator.ofSet it.index)
      (toEndIndex url fuel next).map ((key, it.value) :: ·)

/-- The results of one iteration with `JSON_INDEX`. -/
def Iterable.resultsIndex (iterable : Iterable σ) (url : ℕ → Option BString) (index fuel : ℕ) :
    Option (List (Key × BString)) := do
  let iterator ← IdIterator.begin fuel iterable.db (PathBase.copy iterable.path)
  let it ← (setValueIndex url fuel iterator).map (QueryIterator.ofSet index)
  it.toEndIndex url fuel

/-- The count is that of the results. -/
def CountsResults {ρ : Type} (count : ℕ → Option ℕ) (results : ℕ → Option (List ρ)) : Prop :=
  ∃ n, Returns count n ∧ ∀ rs, Returns results rs → rs.length = n

/-! ### Counting -/

variable {db : Database} {T : BitTree} {R : σ → List Bool → Prop}

/-- What the loop of `count` does at the id of `parent`, once the copy has
moved on. -/
def countAt (iterable : Iterable σ) (it : IdIterator σ) (parent : Key) (count : ℕ)
    (iterator : IdIterator σ) (fuel : ℕ) :
    Option ℕ := do
  let starts ←
    match iterator.item with
    | some child => startsWith ⟨parent.bits, 0, 0⟩ ⟨child.bits, 0, 0⟩
    | none => some false
  iterable.countFrom fuel (it.assign iterator) (if starts then count else count + 1)

theorem countFrom_returns_at {iterable : Iterable σ} {it it' : IdIterator σ} {k : Key} {count n : ℕ}
    (hitem : it.item = some k)
    (hnext : Returns (fun fuel => it.copy.next fuel) it')
    (hn : Returns (countAt iterable it k count it') n) :
    Returns (fun fuel => iterable.countFrom fuel it count) n := by
  apply hnext.bind (g := countAt iterable it k count) hn
  intro fuel
  rw [Iterable.countFrom, hitem]
  rfl

/-- The count goes up by the ids that are left. -/
theorem countFrom_returns (hT : Tracks db T R) (hcopy : Copies R) (iterable : Iterable σ) :
    ∀ {ks : List Key} {it : IdIterator σ} (count : ℕ), it.Stands T db R ks →
      (∀ k ∈ ks, ∃ cs, k.HasComponents cs) →
    Returns (fun fuel => iterable.countFrom fuel it count) (count + (kept ks).length)
  | [], it, count, h, _ => by
    apply Returns.of_succ
    intro fuel
    rw [Iterable.countFrom, h.1]
    rfl
  | [k], it, count, h, _ => by
    obtain ⟨it', hr, h'⟩ := (h.copy hcopy).next hT
    have hrest := countFrom_returns hT hcopy iterable (count + 1)
      (IdIterator.Stands.assign hcopy h h') (by simp)
    have hat : countAt iterable it k count it' = fun fuel => iterable.countFrom fuel (it.assign it')
      (count + 1) := by
      funext fuel
      rw [countAt, h'.1]
      rfl
    exact countFrom_returns_at h.1 hr (hat ▸ hrest)
  | k :: l :: ks, it, count, h, hids => by
    obtain ⟨it', hr, h'⟩ := (h.copy hcopy).next hT
    have hids' : ∀ k ∈ l :: ks, ∃ cs, k.HasComponents cs :=
      fun k hk => hids k (List.mem_cons_of_mem _ hk)
    have hstarts := startsWith_eq (hids k List.mem_cons_self) (hids' l List.mem_cons_self)
    have hat : countAt iterable it k count it' = fun fuel =>
        iterable.countFrom fuel (it.assign it') (if beginsId k l then count else count + 1) := by
      funext fuel
      rw [countAt, h'.1]
      simp only [hstarts, Option.bind_eq_bind, Option.bind_some]
    have hrest := countFrom_returns hT hcopy iterable (if beginsId k l then count else count + 1)
      (IdIterator.Stands.assign hcopy h h') hids'
    have hkept : count + (kept (k :: l :: ks)).length =
        (if beginsId k l then count else count + 1) + (kept (l :: ks)).length := by
      rw [kept]
      split_ifs
      · rfl
      · rw [List.length_cons]
        omega
    rw [hkept]
    exact countFrom_returns_at h.1 hr (hat ▸ hrest)

/-- The results are as many as the ids that are left. -/
theorem count_of_copies (hT : Tracks db T R) (hcopy : Copies R) {iterable : Iterable σ}
    (hdb : iterable.db = db)
    (hR : R iterable.path []) {ks : List Key} (hks : T.keys = ks.map Key.bits)
    (hids : ∀ k ∈ ks, ∃ cs, k.HasComponents cs)
    (index : ℕ) : CountsResults iterable.count (iterable.results index) := by
  have hpath : R (PathBase.copy (PathBase.copy iterable.path)) [] :=
    hcopy (hcopy hR (Or.inl rfl)) (Or.inl rfl)
  obtain ⟨it, hr, h⟩ := IdIterator.Stands.begin hT hpath hks
  have hcount := countFrom_returns hT hcopy iterable 0 h hids
  rw [Nat.zero_add] at hcount
  refine ⟨(kept ks).length, ?_, fun results hresults => ?_⟩
  · have hall := Settles.bind (g := fun it fuel => iterable.countFrom fuel it 0)
      (r := fun _ => some (kept ks).length)
      (hdb ▸ hr).settles fun y hy => by
        obtain rfl := Option.some.inj hy
        exact hcount.settles
    exact hall
  · have hyields := yields_kept iterable ks
    rw [(results_settles hT hcopy hdb hR hks hids index).returns_iff.mp hresults,
      Option.map_some] at hyields
    split_ifs at hyields
    rw [← Option.some.inj hyields, List.length_map]

/-! ### Counting with `JSON_INDEX` -/

/-- Where there is no result, none is counted. -/
theorem countIndex_empty (hT : Tracks db T R) {iterable : Iterable σ} (hdb : iterable.db = db)
    (hR : R (PathBase.copy (PathBase.copy iterable.path)) []) (hks : T.keys = [])
    (url : ℕ → Option BString) (index : ℕ) :
    CountsResults (iterable.countIndex url) (iterable.resultsIndex url index) := by
  have hkeys : T.keys = ([] : List Key).map Key.bits := hks
  obtain ⟨it, ⟨n, hn⟩, h⟩ := IdIterator.Stands.begin hT hR hkeys
  subst hdb
  dsimp only at hn
  have hcount : Returns (iterable.countIndex url) 0 := by
    refine ⟨n + 1, fun fuel hf => ?_⟩
    obtain ⟨k, rfl⟩ := Nat.exists_eq_add_of_le' (show 1 ≤ fuel by omega)
    rw [Iterable.countIndex, hn (k + 1) (by omega), Option.bind_some, Iterable.countIndexFrom, h.1]
  have hresults : Returns (iterable.resultsIndex url index) [] := by
    refine ⟨n + 1, fun fuel hf => ?_⟩
    obtain ⟨k, rfl⟩ := Nat.exists_eq_add_of_le' (show 1 ≤ fuel by omega)
    simp [Iterable.resultsIndex, hn (k + 1) (by omega), setValueIndex, h.1, QueryIterator.ofSet,
      QueryIterator.toEndIndex]
  refine ⟨0, hcount, fun rs hrs => ?_⟩
  rw [hrs.unique hresults]
  rfl

/-- At an id the count does not return: it moves on to other ids only. -/
theorem countIndexFrom_eq_none {url : ℕ → Option BString} :
    ∀ (fuel : ℕ) {it : IdIterator σ} (count : ℕ), it.item ≠ none →
    Iterable.countIndexFrom url fuel it count = none
  | 0, _, _, _ => rfl
  | fuel + 1, it, count, hitem => by
    obtain ⟨parent, hp⟩ := Option.ne_none_iff_exists'.mp hitem
    simp only [Iterable.countIndexFrom, hp, Option.bind_eq_bind]
    rw [Option.bind_eq_none_iff]
    intro parentValue _
    rw [Option.bind_eq_none_iff]
    intro iterator _
    cases hchild : iterator.item with
    | none => exact countIndexFrom_eq_none fuel (count + 1) hitem
    | some child =>
      dsimp only
      rw [Option.bind_eq_none_iff]
      intro childValue _
      have hassign : (it.assign iterator).item ≠ none := by
        show iterator.item ≠ none
        rw [hchild]
        exact Option.some_ne_none child
      split_ifs
      · exact countIndexFrom_eq_none fuel (count + 1) hitem
      · exact countIndexFrom_eq_none fuel count hassign

/-- With `JSON_INDEX` the count is that of the results only where there is
none. -/
theorem countIndex_iff (hT : Tracks db T R) {iterable : Iterable σ} (hdb : iterable.db = db)
    (hR : R (PathBase.copy (PathBase.copy iterable.path)) []) {ks : List Key}
    (hks : T.keys = ks.map Key.bits)
    (url : ℕ → Option BString) (index : ℕ) :
    CountsResults (iterable.countIndex url) (iterable.resultsIndex url index) ↔ ks = [] := by
  constructor
  · rintro ⟨n, ⟨i, hi⟩, -⟩
    by_contra hne
    obtain ⟨k, ks, rfl⟩ := List.exists_cons_of_ne_nil hne
    obtain ⟨it, ⟨m, hm⟩, h⟩ := IdIterator.Stands.begin hT hR hks
    have hbegin : IdIterator.begin (max i m) iterable.db (PathBase.copy iterable.path) = some it :=
      hdb ▸ hm (max i m) (le_max_right _ _)
    have hcount := hi (max i m) (le_max_left _ _)
    rw [Iterable.countIndex, hbegin, Option.bind_some,
      countIndexFrom_eq_none _ _ (by rw [h.1]; exact Option.some_ne_none k)] at hcount
    cases hcount
  · rintro rfl
    exact countIndex_empty hT hdb hR hks url index

end

/-- With `JSON_INDEX` the count of a query is that of its results exactly where
no id is found. -/
theorem countIndex_build (toLower : BString → BString) (auth : Authentication)
    (url : ℕ → Option BString) (index : ℕ)
    {db : Database} {M : Store} (h : db.Stores M) (e : CursorExpr)
    (hpaths : ∀ ks ∈ e.paths, (M ks).isSome) :
    CountsResults ((Iterable.new auth (e.build toLower db).2 (e.build toLower db).1).countIndex url)
      ((Iterable.new auth (e.build toLower db).2 (e.build toLower db).1).resultsIndex url index) ↔
        e.meaning toLower M = ∅ := by
  obtain ⟨Γ, L, h, hM⟩ := h
  obtain ⟨hdb, T, R, hT, hR, hS⟩ := e.rested toLower h hM hpaths
  obtain ⟨ks, hks, -⟩ := exists_sorted (T := T)
  have hmem : ∀ key, key ∈ e.meaning toLower M ↔ key ∈ ks := by
    intro key
    rw [← hS, hks]
    constructor
    · intro hkey
      obtain ⟨k, hk, heq⟩ := List.mem_map.mp hkey
      rwa [← Key.ext heq]
    · exact fun hkey => List.mem_map_of_mem hkey
  have hcopy : ∀ {x}, R x [] → R x.copy [] :=
    fun hx => hT.copy hR hx (Or.inl trivial) (Cursor.rests_nil db _)
  rw [hdb, countIndex_iff hT.tracks rfl (hcopy (hcopy (hcopy hR))) hks url index,
    Set.eq_empty_iff_forall_notMem,
    List.eq_nil_iff_forall_not_mem]
  exact forall_congr' fun key => not_congr (hmem key).symm

/-- Where no not of a query stands inside a key that is found, its cursor is on
the found keys, and so are its copies. -/
theorem CursorExpr.copies (toLower : BString → BString) {db : Database} {M : Store}
    (h : db.Stores M) (e : CursorExpr)
    (hpaths : ∀ ks ∈ e.paths, (M ks).isSome)
    (hrests : ∀ key ∈ e.meaning toLower M, (e.build toLower db).1.Rests db key.bits) :
    (e.build toLower db).2 = db ∧ ∃ (T : BitTree) (R : Cursor → List Bool → Prop) (ks : List Key),
      Tracks db T R ∧
      R (e.build toLower db).1 [] ∧ Copies R ∧ T.keys = ks.map Key.bits ∧
        (ks.map Key.bits).Pairwise (· < ·) ∧
        ∀ key, key ∈ ks ↔ key ∈ e.meaning toLower M := by
  obtain ⟨Γ, L, h, hM⟩ := h
  obtain ⟨hdb, T, R, hT, hR, hS⟩ := e.rested toLower h hM hpaths
  obtain ⟨ks, hks, hsorted⟩ := exists_sorted (T := T)
  refine ⟨hdb, T, R, ks, hT.tracks, hR, fun {x w} hx hw => ?_, hks, hsorted, fun key => ?_⟩
  · rcases hw with rfl | hw
    · exact hT.copy hR hx (Or.inl trivial) (Cursor.rests_nil db _)
    · exact hT.copy hR hx (Or.inr hw) (hrests _ ((hS ⟨w, hw⟩).mp (T.mem_keys.mpr ⟨hw, hT.mem hx⟩)))
  · rw [← hS, hks]
    constructor
    · exact fun hkey => List.mem_map_of_mem hkey
    · intro hkey
      obtain ⟨k, hk, heq⟩ := List.mem_map.mp hkey
      rwa [← Key.ext heq]

/-- **The count of a query is that of its results** where no not of the query
stands inside an id that is found; with `JSON_INDEX`, exactly where no id is
found. -/
theorem count_results (toLower : BString → BString) (auth : Authentication)
    (url : ℕ → Option BString) (index : ℕ)
    (ops : List Op) (e : CursorExpr)
    (hpaths : ∀ ks ∈ e.paths, ((applyAll .empty ops).2 ks).isSome) :
    ∃ (answers : List Answer) (db : Database), runAll .create ops = some (answers, db) ∧
      ((∀ key ∈ e.meaning toLower (applyAll .empty ops).2, ∃ cs, key.HasComponents cs) →
        (∀ key ∈ e.meaning toLower (applyAll .empty ops).2,
          (e.build toLower db).1.Rests db key.bits) →
        CountsResults (Iterable.new auth (e.build toLower db).2 (e.build toLower db).1).count
          ((Iterable.new auth (e.build toLower db).2 (e.build toLower db).1).results index)) ∧
      (CountsResults
        ((Iterable.new auth (e.build toLower db).2 (e.build toLower db).1).countIndex url)
          ((Iterable.new auth (e.build toLower db).2 (e.build toLower db).1).resultsIndex
            url index) ↔
        e.meaning toLower (applyAll .empty ops).2 = ∅) := by
  obtain ⟨db, he, hs⟩ := stores_create.runAll ops
  refine ⟨_, db, he, fun hids hrests => ?_, countIndex_build toLower auth url index hs e hpaths⟩
  obtain ⟨hdb, T, R, ks, hT, hR, hcopy, hks, -, hmem⟩ := e.copies toLower hs hpaths hrests
  rw [hdb]
  exact count_of_copies hT hcopy rfl (hcopy hR (Or.inl rfl)) hks
    (fun k hk => hids k ((hmem k).mp hk)) index

/-- Two ids under a number, and one below the second of them under a word. -/
def wordIds : List Op :=
  [⟨[.of 1, (publicNode (text "a") 3).key .c], .hasData⟩,
    ⟨[.of 1, (publicNode (text "b") 4).key .c], .hasData⟩,
    ⟨[.of (text "w"), publicBelow.key .c], .hasData⟩]

/-- The ids under the number or under the word. -/
def idsOrWord : CursorExpr := .orPath (.path [.of 1]) (.wordPath [] (text "w"))

theorem mem_publicIds {key : Key} (h : key ∈ idsOrWord.meaning id (applyAll .empty wordIds).2) :
    key ∈ publicIds := by
  by_contra hnot
  simp only [publicIds, List.mem_cons, not_or] at hnot
  obtain ⟨ha, hb, hbelow, -⟩ := hnot
  rcases h with h | h
  · have h : ((applyAll .empty wordIds).2 ([.of 1] ++ [key])).isSome := h
    simp [wordIds, applyAll, Op.apply, Action.apply, Store.visit, Store.empty, ha, hb, hbelow] at h
  · have h : ((applyAll .empty wordIds).2 ([] ++ [.of (text "w")] ++ [key])).isSome := h
    simp [wordIds, applyAll, Op.apply, Action.apply, Store.visit, Store.empty, ha, hb, hbelow] at h

theorem count_results_or :
    ∃ (answers : List Answer) (db : Database), runAll .create wordIds = some (answers, db) ∧
    CountsResults (Iterable.new ⟨[], []⟩ (idsOrWord.build id db).2 (idsOrWord.build id db).1).count
      ((Iterable.new ⟨[], []⟩ (idsOrWord.build id db).2 (idsOrWord.build id db).1).results 0) ∧
    (CountsResults
      ((Iterable.new ⟨[], []⟩ (idsOrWord.build id db).2 (idsOrWord.build id db).1).countIndex
        fun _ => some [])
        ((Iterable.new ⟨[], []⟩ (idsOrWord.build id db).2 (idsOrWord.build id db).1).resultsIndex
          (fun _ => some []) 0) ↔
      idsOrWord.meaning id (applyAll .empty wordIds).2 = ∅) := by
  obtain ⟨answers, db, he, hcount, hindex⟩ :=
    count_results id ⟨[], []⟩ (fun _ => some []) 0 wordIds idsOrWord (by
    intro ks hks
    simp only [idsOrWord, CursorExpr.paths, List.mem_append, List.mem_singleton] at hks
    rcases hks with rfl | rfl <;> simp [wordIds, applyAll, Op.apply, Action.apply, Store.visit])
  have hids : ∀ key ∈ idsOrWord.meaning id (applyAll .empty wordIds).2, ∃ cs,
    key.HasComponents cs := by
    intro key hkey
    have hmem := mem_publicIds hkey
    simp only [publicIds, List.mem_cons, List.not_mem_nil, or_false] at hmem
    have hid : ∃ L node, key.bits = toKey L node := by
      rcases hmem with rfl | rfl | rfl <;> exact ⟨_, _, rfl⟩
    exact (exists_firstString hid).imp fun _ h => h.1
  exact ⟨answers, db, he, hcount hids fun _ _ => ⟨fun _ _ _ _ => trivial, fun _ _ _ _ => trivial⟩,
    hindex⟩

/-- With `JSON_INDEX` the count of one index does not return. -/
theorem countIndex_five : ∃ (answers : List Answer) (db : Database),
    runAll .create (storing [.of 5]) = some (answers, db) ∧
      ¬ CountsResults ((Iterable.new ⟨[], []⟩ ((CursorExpr.path []).build id db).2
          ((CursorExpr.path []).build id db).1).countIndex fun _ => some [])
        ((Iterable.new ⟨[], []⟩ ((CursorExpr.path []).build id db).2
          ((CursorExpr.path []).build id db).1).resultsIndex (fun _ => some []) 0) := by
  obtain ⟨db, he, hs⟩ := stores_create.runAll (storing [.of 5])
  refine ⟨_, db, he, ?_⟩
  rw [countIndex_build id ⟨[], []⟩ (fun _ => some []) 0 hs (.path []) (by
    intro ks hks
    rw [List.mem_singleton.mp hks]
    rfl)]
  intro hempty
  have hfive : Key.of 5 ∈ (CursorExpr.path []).meaning id (applyAll .empty (storing [.of 5])).2 :=
    (mem_storing _ _).mpr List.mem_cons_self
  rw [hempty] at hfive
  exact hfive

end BeeFish
