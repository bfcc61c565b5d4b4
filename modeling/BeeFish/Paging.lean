/-
# Pages of results

A search answers with at most ten results and, if there are more, with a number
`next` (`ResponseStream::writeContent`, https/response-stream.h), from which the
next page is asked for: `begin(from)` (query/Iterable.hpp) takes the node with
this index, and goes on after its id. The number is the index that the iterator
holds, which is never set; and even that of the first result that is left would
not do, since `begin(from)` starts after it. `writeContent` goes on with a copy
of the iterator, and a not that stands inside an id goes on wrong from a copy.
Where none does, the pages are the results exactly if there is one page only
(`pages_results`).

The types of the contents are not looked up here.

Key definitions: `IdIterator.resume`, `QueryIterator.beginAt`, `Iterable.page`,
`Iterable.pages`.
-/
import BeeFish.Count
import BeeFish.JSONNode
import Mathlib.Data.List.FinRange
import Mathlib.Data.List.Perm.Subperm

namespace BeeFish

open BitCode

section

variable {σ : Type} [PathBase σ]

/-! ### Resuming -/

/-- The loop of `Iterator(iterable, stack)` (Database/Iterable.hpp): where the
bits lead, with their count; none where it throws. -/
def IdIterator.walkBits : List Bool → Database → σ → ℤ → Option (σ × Database × ℤ)
  | [], db, path, count => some (path, db, count)
  | bit :: bits, db, path, count =>
    if bit = false ∧ PathBase.canGoLeft db path then
      walkBits bits (PathBase.goLeft db path).2 (PathBase.goLeft db path).1 (count - 1)
    else if bit = true ∧ PathBase.canGoRight db path then
      walkBits bits (PathBase.goRight db path).2 (PathBase.goRight db path).1 (count + 1)
    else none

/-- `Iterator(iterable, stack)` -/
def IdIterator.resume (fuel : ℕ) (db : Database) (path : σ) (stack : List Bool) :
    Option (IdIterator σ) := do
  let (path, db, count) ← IdIterator.walkBits stack db (PathBase.copy path) 0
  if count ≠ 0 then none else IdIterator.next fuel ⟨⟨db, path, ⟨stack, 0, 0⟩⟩, none⟩

variable (J : JSONDatabase) (L : Locale)

/-- `Iterator(iterable, from)`: after the id of the node with this index. -/
def QueryIterator.beginAt (fuel : ℕ) (iterable : Iterable σ) (start index : ℕ) :
    Option (QueryIterator σ) := do
  let (id, db) ← (JSON.id J L ⟨start, 0⟩).run iterable.db
  let iterator ← IdIterator.resume fuel db (PathBase.copy iterable.path) id.bits
  (setValue iterable fuel iterator).map (QueryIterator.ofSet index)

/-! ### The pages -/

/-- The iterator that `writeContent` assigns. -/
def QueryIterator.copy (it : QueryIterator σ) : QueryIterator σ :=
  { it with iterator := it.iterator.copy }

/-- The loop of `writeContent`: so many results at most, and the iterator
after them. -/
def QueryIterator.writePage (iterable : Iterable σ) (fuel : ℕ) :
    ℕ → QueryIterator σ → Option (List (Key × BString) × QueryIterator σ)
  | 0, it => some ([], it)
  | count + 1, it =>
    match it.iterator.item with
    | none => some ([], it)
    | some key => do
      let next ← it.next iterable fuel
      let (results, it') ← writePage iterable fuel count next
      return ((key, it.value) :: results, it')

/-- The page from an iterator: its results, and `next` if there are more. -/
def QueryIterator.page (iterable : Iterable σ) (fuel : ℕ) (it : QueryIterator σ) :
    Option (List (Key × BString) × Option ℕ) :=
  (QueryIterator.writePage iterable fuel 10 it).map fun (results, it) =>
    (results, it.iterator.item.map fun _ => it.index)

/-- One page, from a copy of the iterator that `begin` gives. `index` is what the
iterator finds where its index is. -/
def Iterable.page (iterable : Iterable σ) (start : Option ℕ) (index fuel : ℕ) :
    Option (List (Key × BString) × Option ℕ) :=
  match start with
  | none => (QueryIterator.begin fuel iterable index).bind fun it => it.copy.page iterable fuel
  | some start =>
    (QueryIterator.beginAt J L fuel iterable start index).bind fun it => it.copy.page iterable fuel

/-- The pages from one on; none where one of them fails. -/
def Iterable.pagesFrom (iterable : Iterable σ) (indices : ℕ → ℕ) : ℕ → ℕ → Option ℕ →
    Option (List (List (Key × BString)))
  | 0, _, _ => none
  | fuel + 1, number, start => do
    let (results, next) ← iterable.page J L start (indices number) fuel
    match next with
    | none => return [results]
    | some next => (pagesFrom iterable indices fuel (number + 1) (some next)).map (results :: ·)

/-- All pages, following `next`. -/
def Iterable.pages (iterable : Iterable σ) (indices : ℕ → ℕ) (fuel : ℕ) :
    Option (List (List (Key × BString))) :=
  iterable.pagesFrom J L indices fuel 0 none

/-! ### Where resuming leads -/

variable {db : Database} {T : BitTree} {R : σ → List Bool → Prop}

namespace IdIterator

/-- Along the bits of a key that is there the walk comes to the key. -/
theorem walkBits_of_mem (hT : Tracks db T R) {k : List Bool} (hk : IsCode k) (hm : T.mem k = true) :
    ∀ {v w : List Bool} {x : σ} {c : ℤ},
    w ++ v = k → R x w → ∃ y, walkBits v db x c = some (y, db, c + v.count true - v.count false) ∧
      R y k
  | [], w, x, c, hw, hx => ⟨x, by simp [walkBits], by rwa [← hw, List.append_nil]⟩
  | b :: v, w, x, c, hw, hx => by
    have hw' : w ++ [b] ++ v = k := by rw [← hw]; simp
    have hs : Stays 0 w :=
      hk.stays_of_isPrefix ⟨b :: v, hw⟩ fun he => by simpa [← he] using congrArg List.length hw
    have hb : T.mem (w ++ [b]) = true := T.mem_of_isPrefix ⟨v, hw'⟩ hm
    have hcan := (hT.canGo hx hs b).trans hb
    obtain ⟨hdb, hy⟩ := hT.go hx hs b hb
    cases b with
    | false =>
      obtain ⟨y, hwalk, hR⟩ := walkBits_of_mem hT hk hm (c := c - 1) hw' hy
      refine ⟨y, ?_, hR⟩
      have hgo : (PathBase.goLeft db x).2 = db := hdb
      rw [walkBits, if_pos ⟨rfl, hcan⟩, hgo]
      refine hwalk.trans ?_
      simp
      omega
    | true =>
      obtain ⟨y, hwalk, hR⟩ := walkBits_of_mem hT hk hm (c := c + 1) hw' hy
      refine ⟨y, ?_, hR⟩
      have hgo : (PathBase.goRight db x).2 = db := hdb
      rw [walkBits, if_neg (by simp), if_pos ⟨rfl, hcan⟩, hgo]
      refine hwalk.trans ?_
      simp
      omega

/-- Along the bits of a key that is not there the walk throws. -/
theorem walkBits_of_not (hT : Tracks db T R) {k : List Bool} (hk : IsCode k)
    (hm : T.mem k = false) : ∀ {v w : List Bool} {x : σ} {c : ℤ},
    w ++ v = k → R x w → T.mem w = true → walkBits v db x c = none
  | [], w, x, c, hw, hx, hmw => by
    rw [List.append_nil] at hw
    rw [hw, hm] at hmw
    cases hmw
  | b :: v, w, x, c, hw, hx, hmw => by
    have hw' : w ++ [b] ++ v = k := by rw [← hw]; simp
    have hs : Stays 0 w :=
      hk.stays_of_isPrefix ⟨b :: v, hw⟩ fun he => by simpa [← he] using congrArg List.length hw
    have hcan := hT.canGo hx hs b
    by_cases hb : T.mem (w ++ [b]) = true
    · obtain ⟨hdb, hy⟩ := hT.go hx hs b hb
      rw [hb] at hcan
      cases b with
      | false =>
        have hgo : (PathBase.goLeft db x).2 = db := hdb
        rw [walkBits, if_pos ⟨rfl, hcan⟩, hgo]
        exact walkBits_of_not hT hk hm hw' hy hb
      | true =>
        have hgo : (PathBase.goRight db x).2 = db := hdb
        rw [walkBits, if_neg (by simp), if_pos ⟨rfl, hcan⟩, hgo]
        exact walkBits_of_not hT hk hm hw' hy hb
    · rw [Bool.eq_false_iff.mpr hb] at hcan
      have hnot : ∀ a, ¬ (b = a ∧ PathBase.canGo db x a = true) := by
        rintro a ⟨rfl, hgo⟩
        rw [hcan] at hgo
        cases hgo
      have hleft : ¬ (b = false ∧ PathBase.canGoLeft db x = true) := hnot false
      have hright : ¬ (b = true ∧ PathBase.canGoRight db x = true) := hnot true
      rw [walkBits, if_neg hleft, if_neg hright]

/-- From an id that is there the iterator goes on after it. -/
theorem resume_of_mem (hT : Tracks db T R) {p : σ} (hR : R (PathBase.copy p) []) {k : List Bool}
    (hk : k ∈ T.keys)
    {ks : List Key} (hks : T.later k = ks.map Key.bits) :
    ∃ it, Returns (fun fuel => resume fuel db p k) it ∧ it.Stands T db R ks := by
  obtain ⟨hcode, hm⟩ := T.mem_keys.mp hk
  obtain ⟨y, hwalk, hy⟩ := walkBits_of_mem hT hcode hm (v := k) (c := 0) rfl hR
  have hcount : (0 : ℤ) + k.count true - k.count false = 0 := by
    have := Closes.count hcode
    omega
  rw [hcount] at hwalk
  have hat : (⟨db, y, ⟨k, 0, 0⟩⟩ : Walk σ).At db R k := ⟨rfl, hy, .of_code hcode rfl rfl⟩
  obtain ⟨it, hr, h⟩ := Stands.of_lands (hks ▸ next_lands hT hcode hat) none
  refine ⟨it, ?_, h⟩
  have hresume : ∀ fuel, resume fuel db p k = IdIterator.next fuel ⟨⟨db, y, ⟨k, 0, 0⟩⟩, none⟩ :=
    fun fuel => by
    rw [resume, hwalk]
    rfl
  rwa [funext hresume]

/-- From an id that is not there it does not go on. -/
theorem resume_of_not (hT : Tracks db T R) {p : σ} (hR : R (PathBase.copy p) []) {k : List Bool}
    (hcode : IsCode k) (hk : k ∉ T.keys)
    (fuel : ℕ) : resume fuel db p k = none := by
  have hm : T.mem k = false := by
    by_contra hm
    exact hk (T.mem_keys.mpr ⟨hcode, by simpa using hm⟩)
  rw [resume, walkBits_of_not hT hcode hm (v := k) rfl hR T.root]
  rfl

end IdIterator

/-! ### One page -/

theorem AtResult.copy (hcopy : Copies R) {iterable : Iterable σ} {ks : List Key} {it : IdIterator σ}
    {value : BString}
    (h : AtResult T db R iterable ks it value) : AtResult T db R iterable ks it.copy value := by
  rcases h with ⟨h, hnil⟩ | ⟨k, js, h, hrest⟩
  · exact Or.inl ⟨h.copy hcopy, hnil⟩
  · exact Or.inr ⟨k, js, h.copy hcopy, hrest⟩

theorem writePage_returns (hT : Tracks db T R) (hcopy : Copies R) (iterable : Iterable σ)
    (index : ℕ) : ∀ (n : ℕ) {ks : List Key}
    {it : IdIterator σ} {value : BString} {results : List (Key × BString)},
      AtResult T db R iterable ks it value →
    (∀ k ∈ ks, ∃ cs, k.HasComponents cs) → yields iterable ks = some results →
    ∃ it', Returns (fun fuel => QueryIterator.writePage iterable fuel n ⟨it, value, index⟩)
      (results.take n, it') ∧ it'.index = index ∧
      (it'.iterator.item.isSome ↔ n < results.length)
  | 0, ks, it, value, results, h, _, hyields => by
    refine ⟨⟨it, value, index⟩, ⟨0, fun _ _ => rfl⟩, rfl, ?_⟩
    rcases h with ⟨h, hnil⟩ | ⟨k, js, h, -, hcons⟩
    · rw [hyields] at hnil
      rw [h.1, Option.some.inj hnil]
      simp
    · rw [hyields, eq_comm, Option.map_eq_some_iff] at hcons
      obtain ⟨rest, -, rfl⟩ := hcons
      rw [h.1]
      simp
  | n + 1, ks, it, value, results, h, hids, hyields => by
    rcases h with ⟨h, hnil⟩ | ⟨k, js, h, hsuffix, hcons⟩
    · rw [hyields] at hnil
      obtain rfl := Option.some.inj hnil
      refine ⟨⟨it, value, index⟩, ⟨0, fun fuel _ => ?_⟩, rfl, by simp [h.1]⟩
      simp only [QueryIterator.writePage, h.1, List.take_nil]
    · rw [hyields, eq_comm, Option.map_eq_some_iff] at hcons
      obtain ⟨rest, hrest, rfl⟩ := hcons
      have hjs : ∀ k ∈ js, ∃ cs, k.HasComponents cs :=
        fun k hk => hids k (hsuffix.subset (List.mem_cons_of_mem _ hk))
      obtain ⟨o, hnext, hnone, hsome⟩ :=
        QueryIterator.next_settles hT hcopy iterable index value h hjs
      cases o with
      | none =>
        rw [hnone rfl] at hrest
        cases hrest
      | some r =>
        obtain ⟨it', hr, hindex, hmore⟩ :=
          writePage_returns hT hcopy iterable index n (hsome r rfl) hjs hrest
        refine ⟨it', ?_, hindex, by simpa using hmore⟩
        have hpage := Settles.bind
          (g := fun next fuel => (QueryIterator.writePage iterable fuel n next).map fun p =>
            ((k, value) :: p.1, p.2))
          (r := fun _ => some ((k, value) :: rest.take n, it')) hnext fun y hy => by
            obtain rfl := Option.some.inj hy
            exact hr.settles.map _
        have heq : ∀ fuel, QueryIterator.writePage iterable fuel (n + 1) ⟨it, value, index⟩ =
            ((⟨it, value, index⟩ : QueryIterator σ).next iterable fuel).bind fun next =>
              (QueryIterator.writePage iterable fuel n next).map fun p =>
                ((k, value) :: p.1, p.2) := fun fuel => by
          rw [QueryIterator.writePage, h.1]
          simp only [Option.map_eq_bind]
          rfl
        rw [funext heq]
        exact hpage

/-- The page from a result on. -/
theorem page_returns (hT : Tracks db T R) (hcopy : Copies R) (iterable : Iterable σ) (index : ℕ)
    {a : ℕ → Option (QueryIterator σ)}
    {o : Option (IdIterator σ × BString)} {ks : List Key} {results : List (Key × BString)}
    (ha : Settles a (o.map (QueryIterator.ofSet index)))
    (hnone : o = none → yields iterable ks = none)
    (hsome : ∀ r ∈ o, AtResult T db R iterable ks r.1 r.2)
    (hids : ∀ k ∈ ks, ∃ cs, k.HasComponents cs)
    (hyields : yields iterable ks = some results) :
    Returns (fun fuel => (a fuel).bind fun it => it.copy.page iterable fuel)
      (results.take 10, if 10 < results.length then some index else none) := by
  cases o with
  | none =>
    rw [hnone rfl] at hyields
    cases hyields
  | some r =>
    obtain ⟨it', hr, hindex, hmore⟩ := writePage_returns hT hcopy iterable index 10
      ((hsome r rfl).copy hcopy) hids hyields
    have hnext : (it'.iterator.item.map fun _ => it'.index) = if 10 < results.length then some index
      else none := by
      cases hitem : it'.iterator.item with
      | none => rw [if_neg (by simp [← hmore, hitem])]; rfl
      | some key => rw [if_pos (by simp [← hmore, hitem]), hindex]; rfl
    rw [← hnext]
    exact Settles.bind (g := fun it fuel => it.copy.page iterable fuel)
      (r := fun _ => some (results.take 10, it'.iterator.item.map fun _ => it'.index))
        ha fun y hy => by
        obtain rfl := Option.some.inj hy
        exact hr.settles.map _

theorem page_first (J : JSONDatabase) (L : Locale) (hT : Tracks db T R) (hcopy : Copies R)
    {iterable : Iterable σ}
    (hdb : iterable.db = db) (hR : R iterable.path []) {ks : List Key}
    (hks : T.keys = ks.map Key.bits)
    (hids : ∀ k ∈ ks, ∃ cs, k.HasComponents cs) {results : List (Key × BString)}
    (hyields : yields iterable ks = some results)
    (index : ℕ) :
    Returns (iterable.page J L none index) (results.take 10, if 10 < results.length then some index
      else none) := by
  obtain ⟨o, ha, hnone, hsome⟩ := QueryIterator.begin_settles hT hcopy hdb hR hks hids index
  exact page_returns hT hcopy iterable index ha hnone hsome hids hyields

/-! ### The page after the root -/

/-- The index zero is that of a root. -/
theorem id_zero (J : JSONDatabase) (L : Locale) (db : Database) :
    (JSON.id J L ⟨0, 0⟩).run db = some (⟨idBits [] 0, isCode_idBits [] 0⟩, db) := by
  have hroot : JSON.isRoot J ⟨0, 0⟩ = true := by simp [JSON.isRoot]
  have hway : (JSON.way J ⟨0, 0⟩).run db = some (⟨[], 0⟩, db) := by
    simp [JSON.way, upwards, Path.depth, JSON.wayFrom, hroot, StateT.run, bind, StateT.bind,
      pure_apply]
  unfold JSON.id
  rw [StateT.run_bind, hway]
  rfl

/-- No id comes before that of a root with the index zero. -/
theorem idBits_zero_le (cs : List (ℕ × Component)) (i : ℕ) : idBits cs i = idBits [] 0 ∨
    idBits [] 0 < idBits cs i := by
  have hfalse : encode false = [true, false] := by
    show true :: write 0 = _
    rw [write_zero]
  have hzero : idBits [] 0 = [true, true, false, true, false, false] := by
    rw [idBits_eq, hfalse]
    show true :: ([] ++ ([true, false] ++ (true :: write 0 ++ [false]))) = _
    rw [write_zero]
    rfl
  rw [hzero, idBits_eq, componentsBits_next]
  cases cs with
  | nil =>
    by_cases hi : i = 0
    · subst hi
      left
      show true :: (encode false ++ (true :: write 0 ++ [false])) = _
      rw [hfalse, write_zero]
      rfl
    · right
      show _ < true :: (encode false ++ (true :: write i ++ [false]))
      rw [hfalse, write, dif_neg hi]
      simp [List.cons_lt_cons_iff]
  | cons c cs =>
    right
    have htrue : encode (!(c :: cs).isEmpty) = true :: write 1 := rfl
    rw [htrue, write, dif_neg (by simp)]
    simp [List.cons_lt_cons_iff]

/-- The root with the index zero comes first, if it is there. -/
theorem head_zero {ks : List Key} (hsort : Sorted ks) {k : Key} (hk : k.bits = idBits [] 0)
    (hmem : k ∈ ks) :
    ∃ js, ks = k :: js := by
  cases ks with
  | nil => cases hmem
  | cons l js =>
    rcases List.mem_cons.mp hmem with rfl | hjs
    · exact ⟨js, rfl⟩
    · obtain ⟨cs, i, hl⟩ := hsort.ids l List.mem_cons_self
      have hlt := hsort.lt hjs
      rw [hl, hk] at hlt
      rcases idBits_zero_le cs i with heq | hle
      · rw [heq] at hlt
        exact absurd hlt (List.lt_irrefl _)
      · exact absurd hlt (List.lt_asymm hle)

theorem later_head {ks : List Key} {k : Key} (hks : T.keys = (k :: ks).map Key.bits) :
    T.later k.bits = ks.map Key.bits := by
  have hk : k.bits ∈ T.keys := hks ▸ List.mem_cons_self
  obtain ⟨pre, hpre⟩ := T.keys_split hk
  have hsorted := T.sorted_keys
  cases pre with
  | nil =>
    rw [hpre] at hks
    exact (List.cons.inj hks).2
  | cons w pre =>
    have hw : w = k.bits := by
      rw [hks] at hpre
      exact (List.cons.inj hpre).1.symm
    rw [hpre, hw] at hsorted
    exact absurd ((List.pairwise_cons.mp hsorted).1 k.bits (by simp)) (List.lt_irrefl _)

/-- After the first id come the same results, or all but the first one. -/
theorem yields_of_cons {τ : Type} {iterable : Iterable τ} {k : Key} {ks : List Key}
    {results : List (Key × BString)} (h : yields iterable (k :: ks) = some results) :
    ∃ rest, yields iterable ks = some rest ∧ (rest = results ∨ rest = results.tail) := by
  cases ks with
  | nil =>
    rw [yields, Option.map_eq_some_iff] at h
    obtain ⟨value, -, rfl⟩ := h
    exact ⟨[], rfl, Or.inr rfl⟩
  | cons l ks =>
    rw [yields] at h
    split_ifs at h with hbegins
    · exact ⟨results, h, Or.inl rfl⟩
    · obtain ⟨value, -, hmap⟩ := Option.bind_eq_some_iff.mp h
      obtain ⟨rest, hrest, rfl⟩ := Option.map_eq_some_iff.mp hmap
      exact ⟨rest, hrest, Or.inr rfl⟩

/-- The page after the node with the index zero is that after the first id, or
fails. -/
theorem page_zero (J : JSONDatabase) (L : Locale) (hT : Tracks db T R) (hcopy : Copies R)
    {iterable : Iterable σ}
    (hdb : iterable.db = db) (hR : R iterable.path []) {ks : List Key}
    (hks : T.keys = ks.map Key.bits) (hsort : Sorted ks)
    {results : List (Key × BString)} (hyields : yields iterable ks = some results) (index : ℕ) :
    (∀ fuel, iterable.page J L (some 0) index fuel = none) ∨
      ∃ rest next, Returns (iterable.page J L (some 0) index) (rest.take 10, next) ∧
        (rest = results ∨ rest = results.tail) := by
  set k : Key := ⟨idBits [] 0, isCode_idBits [] 0⟩ with hk
  have hpath : R (PathBase.copy (PathBase.copy iterable.path)) [] :=
    hcopy (hcopy hR (Or.inl rfl)) (Or.inl rfl)
  have hbegin : ∀ fuel, QueryIterator.beginAt J L fuel iterable 0 index =
      (IdIterator.resume fuel db (PathBase.copy iterable.path) (idBits [] 0)).bind
        fun iterator => (setValue iterable fuel iterator).map (QueryIterator.ofSet index) :=
          fun fuel => by
    rw [QueryIterator.beginAt, hdb, id_zero]
    rfl
  by_cases hmem : k ∈ ks
  · right
    obtain ⟨js, rfl⟩ := head_zero hsort rfl hmem
    have hkeys : k.bits ∈ T.keys := hks ▸ List.mem_cons_self
    obtain ⟨it, hr, h⟩ := IdIterator.resume_of_mem hT hpath hkeys (later_head hks)
    have hids : ∀ k ∈ js, ∃ cs, k.HasComponents cs := hsort.tail.ids
    obtain ⟨o, ha, hnone, hsome⟩ := QueryIterator.settles_set hT hcopy iterable index hr h hids
    obtain ⟨rest, hrest, hor⟩ := yields_of_cons hyields
    refine ⟨rest, if 10 < rest.length then some index else none, ?_, hor⟩
    have hpage := page_returns hT hcopy iterable index ha hnone hsome hids hrest
    have heq : iterable.page J L (some 0) index = fun fuel =>
        ((IdIterator.resume fuel db (PathBase.copy iterable.path) (idBits [] 0)).bind
          fun iterator => (setValue iterable fuel iterator).map (QueryIterator.ofSet index)).bind
            fun it => it.copy.page iterable fuel :=
      funext fun fuel => by rw [Iterable.page, hbegin]
    rw [heq]
    exact hpage
  · left
    intro fuel
    have hkeys : idBits [] 0 ∉ T.keys := by
      rw [hks]
      intro hin
      obtain ⟨l, hl, heq⟩ := List.mem_map.mp hin
      have hlk : l = k := Key.ext heq
      exact hmem (hlk ▸ hl)
    rw [Iterable.page, hbegin, IdIterator.resume_of_not hT hpath (isCode_idBits [] 0) hkeys]
    rfl

/-! ### All pages -/

omit [PathBase σ] in
theorem nodup_results (iterable : Iterable σ) {ks : List Key} (hsort : Sorted ks)
    {results : List (Key × BString)}
    (hyields : yields iterable ks = some results) : results.Nodup := by
  have hkept := yields_kept iterable ks
  rw [hyields, Option.map_some] at hkept
  split_ifs at hkept
  have hfst := Option.some.inj hkept
  have hsorted : ((kept ks).map Key.bits).Pairwise (· < ·) :=
    hsort.sorted.sublist ((kept_sublist ks).map _)
  rw [← hfst] at hsorted
  have hnodup : ((results.map Prod.fst).map Key.bits).Nodup := by
    refine List.Pairwise.imp (fun {a b} hlt heq => ?_) hsorted
    rw [heq] at hlt
    exact List.lt_irrefl _ hlt
  exact (hnodup.of_map _).of_map _

/-- The pages are the results exactly if there is one page. -/
theorem pages_iff (J : JSONDatabase) (L : Locale) (hT : Tracks db T R) (hcopy : Copies R)
    {iterable : Iterable σ}
    (hdb : iterable.db = db) (hR : R iterable.path []) {ks : List Key}
    (hks : T.keys = ks.map Key.bits) (hsort : Sorted ks)
    {results : List (Key × BString)} (hyields : yields iterable ks = some results) :
    (∀ indices, ∃ pages, Returns (iterable.pages J L indices) pages ∧ pages.flatten = results) ↔
      results.length ≤ 10 := by
  have hfirst := page_first J L hT hcopy hdb hR hks hsort.ids hyields
  constructor
  · intro hall
    by_contra hlen
    rw [not_le] at hlen
    -- the iterator holds a zero
    obtain ⟨pages, ⟨n, hn⟩, hflatten⟩ := hall fun _ => 0
    obtain ⟨m, hm⟩ := hfirst 0
    rw [if_pos hlen] at hm
    have hsecond : ∀ fuel, n + m ≤ fuel → ∃ rest, iterable.pagesFrom J L (fun _ => 0) fuel 1
      (some 0) = some rest ∧
        pages = results.take 10 :: rest := by
      intro fuel hfuel
      have hpages := hn (fuel + 1) (by omega)
      rw [Iterable.pages, Iterable.pagesFrom, hm fuel (by omega)] at hpages
      obtain ⟨rest, hrest, heq⟩ := Option.map_eq_some_iff.mp hpages
      exact ⟨rest, hrest, heq.symm⟩
    rcases page_zero J L hT hcopy hdb hR hks hsort hyields 0 with hnone | ⟨more, next,
      ⟨j, hj⟩, hmore⟩
    · obtain ⟨rest, hrest, -⟩ := hsecond (n + m + 1) (by omega)
      rw [Iterable.pagesFrom, hnone] at hrest
      cases hrest
    · obtain ⟨rest, hrest, rfl⟩ := hsecond (n + m + j + 1) (by omega)
      rw [Iterable.pagesFrom, hj _ (by omega)] at hrest
      obtain ⟨others, rfl⟩ : ∃ others, rest = more.take 10 :: others := by
        cases next with
        | none => exact ⟨[], (Option.some.inj hrest).symm⟩
        | some next =>
          obtain ⟨others, -, heq⟩ := Option.map_eq_some_iff.mp hrest
          exact ⟨others, heq.symm⟩
      rw [List.flatten_cons, List.flatten_cons] at hflatten
      -- the first result of the second page is on the first page
      have hnodup := nodup_results iterable hsort hyields
      rw [← hflatten, List.nodup_append] at hnodup
      obtain ⟨a, b, tail, rfl⟩ : ∃ a b tail, results = a :: b :: tail := by
        match results, hlen with
        | a :: b :: tail, _ => exact ⟨a, b, tail, rfl⟩
      rcases hmore with rfl | rfl
      · exact hnodup.2.2 a (by simp) a (by simp) rfl
      · exact hnodup.2.2 b (by simp) b (by simp) rfl
  · intro hlen indices
    obtain ⟨m, hm⟩ := hfirst (indices 0)
    rw [if_neg (by omega)] at hm
    refine ⟨[results.take 10], ⟨m + 1, fun fuel hfuel => ?_⟩, by simpa using hlen⟩
    obtain ⟨k, rfl⟩ := Nat.exists_eq_add_of_le' (Nat.le_of_add_left_le hfuel)
    rw [Iterable.pages, Iterable.pagesFrom, hm k (by omega)]
    rfl

end

/-- A letter after `a`. -/
def letter (i : Fin 11) : BString := [UInt8.ofNat (97 + i)]

/-- Eleven public nodes. -/
def letters : List Key := List.ofFn fun i => (publicNode (letter i) (3 + i)).key .c

theorem toKey_letter (i : Fin 11) : ((publicNode (letter i) (3 + i)).key .c).bits =
    idBits [(2, .string (text "public")), (0, .string (letter i))] (3 + i) :=
  toKey_publicNode (3 + i) (by revert i; decide)

theorem letter_injective : Function.Injective fun i => (publicNode (letter i) (3 + i)).key .c := by
  intro i j h
  have hbits := congrArg Key.bits h
  simp only [toKey_letter] at hbits
  have := (idBits_injective hbits).2
  omega

/-- **The pages are the results** of a query for ids, where no not of it stands
inside an id that is found, whatever the iterators find where their index is,
exactly if there are no more than ten. -/
theorem pages_results (toLower : BString → BString) (J : JSONDatabase) (L : Locale)
    (auth : Authentication) (ops : List Op)
    (e : CursorExpr) (hpaths : ∀ ks ∈ e.paths, ((applyAll .empty ops).2 ks).isSome)
    (hids : ∀ key ∈ e.meaning toLower (applyAll .empty ops).2, ∃ L node, key.bits = toKey L node) :
    ∃ answers db, runAll .create ops = some (answers, db) ∧
      ((∀ key ∈ e.meaning toLower (applyAll .empty ops).2,
        (e.build toLower db).1.Rests db key.bits) →
        ∀ results index,
          Returns ((Iterable.new auth (e.build toLower db).2 (e.build toLower db).1).results index)
            results →
          ((∀ indices, ∃ pages,
            Returns ((Iterable.new auth (e.build toLower db).2 (e.build toLower db).1).pages J L
              indices) pages ∧
            pages.flatten = results) ↔ results.length ≤ 10)) := by
  obtain ⟨db, he, hs⟩ := stores_create.runAll ops
  refine ⟨_, db, he, fun hrests results index hresults => ?_⟩
  obtain ⟨hdb, T, R, ks, hT, hR, hcopy, hks, hsorted, hmem⟩ := e.copies toLower hs hpaths hrests
  rw [hdb] at hresults ⊢
  have hsort : Sorted ks :=
    ⟨hsorted, fun k hk => (exists_firstString (hids k ((hmem k).mp hk))).imp fun _ h => h.1⟩
  have hpath : R (e.build toLower db).1.copy [] := hcopy hR (Or.inl rfl)
  have hyields := (results_settles hT hcopy rfl hpath hks hsort.ids index).returns_iff.mp hresults
  exact pages_iff J L hT hcopy rfl hpath hks hsort hyields

/-- A query for two ids that are not under the second one. -/
theorem pages_results_not :
    ∃ answers db,
      runAll .create
        (storing [(publicNode (letter 0) 3).key .c, (publicNode (letter 1) 4).key .c]) =
        some (answers, db) ∧
      ∀ results index, Returns ((Iterable.new ⟨[], []⟩
          ((CursorExpr.notPath (.path [(publicNode (letter 1) 4).key .c]) []).build id db).2
          ((CursorExpr.notPath (.path [(publicNode (letter 1) 4).key .c]) []).build id
            db).1).results index) results →
        ((∀ indices, ∃ pages, Returns ((Iterable.new ⟨[], []⟩
            ((CursorExpr.notPath (.path [(publicNode (letter 1) 4).key .c]) []).build id db).2
            ((CursorExpr.notPath (.path [(publicNode (letter 1) 4).key .c]) []).build id
              db).1).pages
              ⟨.root, .root, .root, .root, .root, .root⟩ .c indices) pages ∧
                pages.flatten = results) ↔ results.length ≤ 10) := by
  set keys := [(publicNode (letter 0) 3).key .c, (publicNode (letter 1) 4).key .c] with hkeys
  obtain ⟨answers, db, he, h⟩ := pages_results id ⟨.root, .root, .root, .root, .root, .root⟩ .c
    ⟨[], []⟩ (storing keys)
    (.notPath (.path [(publicNode (letter 1) 4).key .c]) [])
    (by
      intro ks hks
      rcases List.mem_cons.mp hks with rfl | hks
      · exact isSome_storing_root keys _ rfl
      · obtain rfl := List.mem_singleton.mp hks
        exact (isSome_storing _ keys _).mpr (Or.inl (by simp [hkeys])))
    (by
      rintro key ⟨hkey, -⟩
      have hmem : key ∈ keys := (mem_storing _ key).mp hkey
      rcases List.mem_cons.mp hmem with rfl | hmem
      · exact ⟨_, _, rfl⟩
      · obtain rfl := List.mem_singleton.mp hmem
        exact ⟨_, _, rfl⟩)
  exact ⟨answers, db, he, h fun key _ => ⟨height_closes key.isCode, fun _ _ _ _ => trivial⟩⟩

/-- A query for eleven ids. -/
theorem pages_letters :
    ¬ ∀ (toLower : BString →
      BString) (J : JSONDatabase) (L : Locale) (auth : Authentication) (ops : List Op)
    (e : CursorExpr), (∀ ks ∈ e.paths, ((applyAll .empty ops).2 ks).isSome) →
      (∀ key ∈ e.meaning toLower (applyAll .empty ops).2, ∃ L node, key.bits = toKey L node) →
      ∃ answers db, runAll .create ops = some (answers, db) ∧ ∀ results index,
        Returns ((Iterable.new auth (e.build toLower db).2 (e.build toLower db).1).results index)
          results →
          ∀ indices, ∃ pages,
            Returns ((Iterable.new auth (e.build toLower db).2 (e.build toLower db).1).pages J L
              indices) pages ∧
            pages.flatten = results := by
  intro h
  have hletters : ∀ key, key ∈ (CursorExpr.path []).meaning id
    (applyAll .empty (storing letters)).2 ↔
      ∃ i, (publicNode (letter i) (3 + i)).key .c = key := fun key => by
    show key ∈ CursorExpr.under _ [] ↔ _
    rw [mem_storing, letters, List.mem_ofFn]
  have hcomponents : ∀ key ∈ (CursorExpr.path []).meaning id (applyAll .empty (storing letters)).2,
    ∃ i,
      key = (publicNode (letter i) (3 + i)).key .c ∧
        key.HasComponents [(2, .string (text "public")), (0, .string (letter i))] := by
    intro key hkey
    obtain ⟨i, rfl⟩ := (hletters key).mp hkey
    exact ⟨i, rfl, 3 + i, toKey_letter i⟩
  have hids : ∀ key ∈ (CursorExpr.path []).meaning id (applyAll .empty (storing letters)).2,
    ∃ L node, key.bits = toKey L node := by
    intro key hkey
    obtain ⟨i, rfl⟩ := (hletters key).mp hkey
    exact ⟨_, _, rfl⟩
  have hpaths : ∀ ks ∈ (CursorExpr.path []).paths,
    ((applyAll .empty (storing letters)).2 ks).isSome := by
    intro ks hks
    obtain rfl := List.mem_singleton.mp hks
    exact isSome_storing_root letters _ rfl
  obtain ⟨answers, db, he, hpages⟩ := h id ⟨.root, .root, .root, .root, .root, .root⟩ .c ⟨[], []⟩
    (storing letters) (.path []) hpaths hids
  obtain ⟨db', he', hs⟩ := stores_create.runAll (storing letters)
  rw [he'] at he
  obtain ⟨-, rfl⟩ := Prod.mk.inj (Option.some.inj he)
  obtain ⟨hdb, T, R, ks, hT, hR, hcopy, hks, hsorted, hmem⟩ :=
    (CursorExpr.path []).copies id hs hpaths fun _ _ => trivial
  set S := (CursorExpr.path []).meaning id (applyAll .empty (storing letters)).2
  have hbelow : ∀ a ∈ S, ∀ b ∈ S, ¬ b.Below a := by
    rintro a ha b hb ⟨cs, ds, hcs, hds, hpre, hne⟩
    obtain ⟨i, -, hi⟩ := hcomponents a ha
    obtain ⟨j, -, hj⟩ := hcomponents b hb
    obtain rfl := hcs.unique hi
    obtain rfl := hds.unique hj
    exact hne (hpre.eq_of_length rfl)
  have hsame : ∀ a ∈ S, ∀ b ∈ S, ∀ cs, a.HasComponents cs → b.HasComponents cs → a = b := by
    intro a ha b hb cs hacs hbcs
    obtain ⟨i, rfl, hi⟩ := hcomponents a ha
    obtain ⟨j, rfl, hj⟩ := hcomponents b hb
    obtain rfl := hacs.unique hi
    have hletter : letter i = letter j := by simpa using hbcs.unique hj
    have hij : i = j := by
      have hdecide : ∀ i j : Fin 11, letter i = letter j → i = j := by decide
      exact hdecide i j hletter
    rw [hij]
  have hfirst : ∀ key ∈ ks, ∃ cs, key.HasComponents cs ∧ FirstString cs := fun key hkey =>
    exists_firstString (hids key ((hmem key).mp hkey))
  have hsort : Sorted ks := ⟨hsorted, fun k hk => (hfirst k hk).imp fun _ h => h.1⟩
  have hpath : R ((CursorExpr.path []).build id db').1.copy [] := hcopy hR (Or.inl rfl)
  rw [hdb] at hpages
  have hleaves : (Iterable.new ⟨[], []⟩ db' ((CursorExpr.path []).build id db').1).Yields
    (leaves S) ↔ _ :=
    Iterable.yields_leaves_iff hT hcopy rfl hpath hks hsort hfirst hmem
  obtain ⟨results, hreturns, -, hresults⟩ := hleaves.mpr ⟨fun a ha hroot b hb => by
      obtain ⟨i, -, hi⟩ := hcomponents a ha
      exact absurd (hroot.unique hi) (by simp), fun a ha b hb cs hacs hbcs hne =>
        absurd (hsame a ha b hb cs hacs hbcs) hne,
    fun a ha cs hcs => by
      obtain ⟨i, -, hi⟩ := hcomponents a ha.1
      obtain rfl := hcs.unique hi
      exact Or.inr fun c hc => Or.inl (by rw [← Option.some.inj hc]; rfl)⟩ 0
  have hlength : 11 ≤ results.length := by
    have hnodup : letters.Nodup := List.nodup_ofFn.mpr letter_injective
    have hsubset : letters ⊆ results.map Prod.fst := fun key hkey =>
      (hresults key).mpr ⟨(mem_storing _ key).mpr hkey, hbelow key ((mem_storing _ key).mpr hkey)⟩
    simpa [letters] using (hnodup.subperm hsubset).length_le
  have hyields := (results_settles hT hcopy rfl hpath hks hsort.ids 0).returns_iff.mp hreturns
  have hle := (pages_iff _ .c hT hcopy rfl hpath hks hsort hyields).mp (hpages results 0 hreturns)
  omega

end BeeFish
