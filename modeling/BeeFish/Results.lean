/-
# The results of a query

`query/Iterable.hpp` walks over the ids under a path and leaves out those that
begin the next one, so that of a document and its parts only the innermost are
results. An id that begins its successor has a descendant in the set, or one
with the same components follows, which is not a descendant: of two ids with
the same components the first is lost. The root begins only another root, so
it is a result whatever is below it (`results_leaves`).

The URL of a result is read from its id, where the reading fails on the node
of another user (`keyToString_toKey`).

Key definitions: `IdIterator`, `setValue`, `QueryIterator`, `yields`.
-/
import BeeFish.CursorExpr
import BeeFish.Descendants
import BeeFish.Pages

namespace BeeFish

open BitCode

/-! ### Iterators -/

/-- `Iterable<Id>::Iterator` (Database/Iterable.hpp); there is no item at the
end. -/
structure IdIterator (σ : Type) where
  walk : Walk σ
  item : Option Key

namespace IdIterator

variable {σ : Type} [PathBase σ]

/-- `operator ++` -/
def next (fuel : ℕ) (it : IdIterator σ) : Option (IdIterator σ) :=
  (Walk.nextItem fuel it.walk).map fun (item, walk) => ⟨walk, item⟩

def begin (fuel : ℕ) (db : Database) (path : σ) : Option (IdIterator σ) :=
  next fuel ⟨⟨db, PathBase.copy path, .empty⟩, none⟩

/-- The copy of a stack has its bits only. -/
def copy (it : IdIterator σ) : IdIterator σ where
  walk := ⟨it.walk.db, PathBase.copy it.walk.path, ⟨it.walk.stack.bits, 0, 0⟩⟩
  item := it.item

/-- `operator =`, which leaves the count of the stack. -/
def assign (it source : IdIterator σ) : IdIterator σ where
  walk := ⟨source.walk.db, PathBase.copy source.walk.path,
    ⟨source.walk.stack.bits, it.walk.stack.count, 0⟩⟩
  item := source.item

end IdIterator

/-- `Iterable` (query/Iterable.hpp) -/
structure Iterable (σ : Type) where
  auth : Authentication
  db : Database
  path : σ

/-- `Iterable::toString` -/
def Iterable.toString {σ : Type} (iterable : Iterable σ) (key : Key) : Option BString :=
  (keyToString iterable.auth key.bits).map Prod.fst

section

variable {σ : Type} [PathBase σ]

def Iterable.new (auth : Authentication) (db : Database) (path : σ) : Iterable σ :=
  ⟨auth, db, PathBase.copy path⟩

/-- `Iterable::Iterator::setValue`: the iterator moves on as long as its id
begins the next one. -/
def setValue (iterable : Iterable σ) : ℕ → IdIterator σ → Option (IdIterator σ × BString)
  | 0, _ => none
  | fuel + 1, it =>
    match it.item with
    | none => some (it, [])
    | some parent => do
      let iterator ← it.copy.next fuel
      let starts ←
        match iterator.item with
        | some child => startsWith ⟨parent.bits, 0, 0⟩ ⟨child.bits, 0, 0⟩
        | none => some false
      if starts then setValue iterable fuel (it.assign iterator)
      else (iterable.toString parent).map fun value => (it, value)

/-- `Iterable::Iterator` -/
structure QueryIterator (σ : Type) where
  iterator : IdIterator σ
  value : BString
  /-- `_index`, which is not set anywhere. -/
  index : ℕ

namespace QueryIterator

/-- The iterator with what `setValue` sets. -/
def ofSet (index : ℕ) (set : IdIterator σ × BString) : QueryIterator σ := ⟨set.1, set.2, index⟩

def begin (fuel : ℕ) (iterable : Iterable σ) (index : ℕ) : Option (QueryIterator σ) := do
  let iterator ← IdIterator.begin fuel iterable.db (PathBase.copy iterable.path)
  (setValue iterable fuel iterator).map (QueryIterator.ofSet index)

/-- `operator ++` -/
def next (iterable : Iterable σ) (fuel : ℕ) (it : QueryIterator σ) : Option (QueryIterator σ) := do
  let iterator ← it.iterator.next fuel
  (setValue iterable fuel iterator).map (QueryIterator.ofSet it.index)

/-- The ids from here to the end, with their URLs. -/
def toEnd (iterable : Iterable σ) : ℕ → QueryIterator σ → Option (List (Key × BString))
  | 0, _ => none
  | fuel + 1, it =>
    match it.iterator.item with
    | none => some []
    | some key => do
      let next ← it.next iterable fuel
      (toEnd iterable fuel next).map ((key, it.value) :: ·)

end QueryIterator

/-- The results of one iteration from `begin()` to `end()`. -/
def Iterable.results (iterable : Iterable σ) (index fuel : ℕ) : Option (List (Key × BString)) :=
  (QueryIterator.begin fuel iterable index).bind (QueryIterator.toEnd iterable fuel)

/-! ### Where an iterator stands -/

variable {db : Database} {T : BitTree} {R : σ → List Bool → Prop}

/-- The iterator is at the first of the keys, and the others come after it. -/
def IdIterator.Stands (T : BitTree) (db : Database) (R : σ → List Bool → Prop) (it : IdIterator σ) :
    List Key → Prop
  | [] => it.item = none ∧ it.walk.At db R []
  | k :: ks => it.item = some k ∧ it.walk.At db R k.bits ∧ T.later k.bits = ks.map Key.bits

/-- The copy of a path at the start or at a key is in the same place. -/
def Copies (R : σ → List Bool → Prop) : Prop :=
  ∀ {x w}, R x w → w = [] ∨ IsCode w → R (PathBase.copy x) w

namespace IdIterator.Stands

variable {it : IdIterator σ} {ks : List Key}

theorem of_lands {c : Walk σ}
    (h : ∃ r, Returns (Walk.next · c) r ∧ Lands T db R (ks.map Key.bits) r) (item : Option Key) :
    ∃ it, Returns (fun fuel => IdIterator.next fuel ⟨c, item⟩) it ∧ it.Stands T db R ks := by
  obtain ⟨⟨found, c'⟩, hr, hl⟩ := h
  cases ks with
  | nil =>
    obtain ⟨rfl, hat⟩ : found = false ∧ c'.At db R [] := hl
    have hitem : Returns (fun fuel => Walk.nextItem (α := Key) fuel c) (none, c') :=
      hr.bind_some rfl
    exact ⟨⟨c', none⟩, hitem.map _, rfl, hat⟩
  | cons k ks =>
    obtain ⟨rfl, -, hat, hlater⟩ : found = true ∧ IsCode k.bits ∧ c'.At db R k.bits ∧
      T.later k.bits = ks.map Key.bits := hl
    obtain ⟨c₁, hread, hat₁⟩ := readItem_of_at (a := k) hat
    have hitem : Returns (fun fuel => Walk.nextItem (α := Key) fuel c) (some k, c₁) :=
      hr.bind_some hread
    exact ⟨⟨c₁, some k⟩, hitem.map _, rfl, hat₁, hlater⟩

theorem begin (hT : Tracks db T R) {p : σ} (hR : R (PathBase.copy p) [])
    (hks : T.keys = ks.map Key.bits) :
    ∃ it, Returns (fun fuel => IdIterator.begin fuel db p) it ∧ it.Stands T db R ks :=
  of_lands (hks ▸ next_lands_start hT (at_start db hR)) none

theorem next (hT : Tracks db T R) {k : Key} (h : it.Stands T db R (k :: ks)) :
    ∃ it', Returns (fun fuel => it.next fuel) it' ∧ it'.Stands T db R ks := by
  obtain ⟨-, hat, hlater⟩ := h
  exact of_lands (hlater ▸ next_lands hT k.isCode hat) it.item

omit [PathBase σ] in
/-- At a key the count of the stack is zero. -/
theorem count (h : it.Stands T db R ks) : it.walk.stack.count = 0 := by
  cases ks with
  | nil => rw [h.2.stack.count]; rfl
  | cons k ks => rw [h.2.1.stack.count, height_closes k.isCode]

theorem moved (hcopy : Copies R) (h : it.Stands T db R ks) {it' : IdIterator σ}
    (hdb : it'.walk.db = it.walk.db)
    (hpath : it'.walk.path = PathBase.copy it.walk.path)
    (hbits : it'.walk.stack.bits = it.walk.stack.bits)
    (hcount : it'.walk.stack.count = 0) (hitem : it'.item = it.item) : it'.Stands T db R ks := by
  cases ks with
  | nil =>
    obtain ⟨h0, hat⟩ := h
    exact ⟨hitem.trans h0, hdb.trans hat.db, hpath ▸ hcopy hat.path (Or.inl rfl),
      hbits.trans hat.stack.bits, hcount⟩
  | cons k ks =>
    obtain ⟨h0, hat, hlater⟩ := h
    exact ⟨hitem.trans h0, ⟨hdb.trans hat.db, hpath ▸ hcopy hat.path (Or.inr k.isCode),
      .of_code k.isCode (hbits.trans hat.stack.bits) hcount⟩, hlater⟩

theorem copy (hcopy : Copies R) (h : it.Stands T db R ks) : it.copy.Stands T db R ks :=
  h.moved hcopy rfl rfl rfl rfl rfl

theorem assign (hcopy : Copies R) {it' : IdIterator σ} {js : List Key} (h' : it'.Stands T db R js)
    (h : it.Stands T db R ks) :
    (it'.assign it).Stands T db R ks :=
  h.moved hcopy rfl rfl rfl h'.count rfl

end IdIterator.Stands

/-! ### One iteration -/

/-- The key is an id with these components. -/
def Key.HasComponents (key : Key) (components : List (ℕ × Component)) : Prop :=
  ∃ index, key.bits = idBits components index

/-- The first id begins the second one. -/
def beginsId (k l : Key) : Bool := (startsWith ⟨k.bits, 0, 0⟩ ⟨l.bits, 0, 0⟩).getD false

theorem startsWith_eq {k l : Key} (hk : ∃ cs, k.HasComponents cs) (hl : ∃ cs, l.HasComponents cs) :
    startsWith ⟨k.bits, 0, 0⟩ ⟨l.bits, 0, 0⟩ = some (beginsId k l) := by
  obtain ⟨cs, i, hcs⟩ := hk
  obtain ⟨ds, j, hds⟩ := hl
  rw [beginsId, hcs, hds, startsWith_idBits]
  rfl

/-- The results among the ids, and none if the URL of one cannot be read. -/
def yields (iterable : Iterable σ) : List Key → Option (List (Key × BString))
  | [] => some []
  | [k] => (iterable.toString k).map fun value => [(k, value)]
  | k :: l :: ks =>
    if beginsId k l then yields iterable (l :: ks)
    else (iterable.toString k).bind fun value => (yields iterable (l :: ks)).map ((k, value) :: ·)

/-- The iterator is at the first result among the ids. -/
def AtResult (T : BitTree) (db : Database) (R : σ → List Bool → Prop) (iterable : Iterable σ)
    (ks : List Key)
    (it : IdIterator σ) (value : BString) : Prop :=
  it.Stands T db R [] ∧ yields iterable ks = some [] ∨
    ∃ k js, it.Stands T db R (k :: js) ∧ k :: js <:+ ks ∧ yields iterable ks =
      (yields iterable js).map ((k, value) :: ·)

/-- What the loop of `setValue` does at the id of `parent`, once the copy has
moved on. -/
def setValueAt (iterable : Iterable σ) (it : IdIterator σ) (parent : Key) (iterator : IdIterator σ)
    (fuel : ℕ) :
    Option (IdIterator σ × BString) := do
  let starts ←
    match iterator.item with
    | some child => startsWith ⟨parent.bits, 0, 0⟩ ⟨child.bits, 0, 0⟩
    | none => some false
  if starts then setValue iterable fuel (it.assign iterator)
  else (iterable.toString parent).map fun value => (it, value)

theorem setValue_settles_at {iterable : Iterable σ} {it it' : IdIterator σ} {k : Key}
    {o : Option (IdIterator σ × BString)}
    (hitem : it.item = some k) (hnext : Returns (fun fuel => it.copy.next fuel) it')
    (ho : Settles (setValueAt iterable it k it') o) :
    Settles (fun fuel => setValue iterable fuel it) o := by
  have hbind := Settles.bind (g := setValueAt iterable it k) (r := fun _ => o)
    hnext.settles fun y hy => by
    obtain rfl := Option.some.inj hy
    exact ho
  refine hbind.step fun fuel => ?_
  rw [setValue, hitem]
  rfl

theorem setValue_settles (hT : Tracks db T R) (hcopy : Copies R) (iterable : Iterable σ) :
    ∀ {ks : List Key} {it : IdIterator σ},
    it.Stands T db R ks → (∀ k ∈ ks, ∃ cs, k.HasComponents cs) →
    ∃ o, Settles (fun fuel => setValue iterable fuel it) o ∧
      (o = none → yields iterable ks = none) ∧
      ∀ r ∈ o, AtResult T db R iterable ks r.1 r.2
  | [], it, h, _ => by
    refine ⟨some (it, []), (Settles.const _).step fun fuel => ?_, nofun, fun r hr => ?_⟩
    · rw [setValue, h.1]
    · rw [← Option.some.inj hr]
      exact Or.inl ⟨h, rfl⟩
  | [k], it, h, _ => by
    obtain ⟨it', hr, h'⟩ := (h.copy hcopy).next hT
    have hat : setValueAt iterable it k it' = fun _ => (iterable.toString k).map fun value =>
      (it, value) := by
      funext fuel
      rw [setValueAt, h'.1]
      rfl
    refine ⟨_, setValue_settles_at h.1 hr (hat ▸ Settles.const _), fun h0 => ?_, fun r hr => ?_⟩
    · rw [yields, Option.map_eq_none_iff.mp h0]
      rfl
    · obtain ⟨value, hvalue, rfl⟩ := Option.map_eq_some_iff.mp hr
      exact Or.inr ⟨k, [], h, List.suffix_rfl, by simp [yields, hvalue]⟩
  | k :: l :: ks, it, h, hids => by
    obtain ⟨it', hr, h'⟩ := (h.copy hcopy).next hT
    have hrest : ∀ k ∈ l :: ks, ∃ cs, k.HasComponents cs :=
      fun k hk => hids k (List.mem_cons_of_mem _ hk)
    have hstarts := startsWith_eq (hids k List.mem_cons_self) (hrest l List.mem_cons_self)
    have hat : setValueAt iterable it k it' = fun fuel =>
      if beginsId k l then setValue iterable fuel (it.assign it')
        else (iterable.toString k).map fun value => (it, value) := by
      funext fuel
      rw [setValueAt, h'.1]
      simp only [hstarts, Option.bind_eq_bind, Option.bind_some]
    by_cases hbegins : beginsId k l = true
    · simp only [hbegins, if_true] at hat
      obtain ⟨o, ho, hnone, hsome⟩ :=
        setValue_settles hT hcopy iterable (IdIterator.Stands.assign hcopy h h') hrest
      have hyields : yields iterable (k :: l :: ks) = yields iterable (l :: ks) := by
        rw [yields, if_pos hbegins]
      refine ⟨o, setValue_settles_at h.1 hr (hat ▸ ho), hyields ▸ hnone, fun r hr => ?_⟩
      rcases hsome r hr with h0 | ⟨k', js, hs, hsuffix, hy⟩
      · exact Or.inl (hyields ▸ h0)
      · exact Or.inr ⟨k', js, hs, hsuffix.trans (List.suffix_cons k (l :: ks)), hyields ▸ hy⟩
    · simp only [hbegins, Bool.false_eq_true, if_false] at hat
      have hyields : yields iterable (k :: l :: ks) =
          (iterable.toString k).bind fun value => (yields iterable (l :: ks)).map
            ((k, value) :: ·) := by
        rw [yields, if_neg hbegins]
      refine ⟨_, setValue_settles_at h.1 hr (hat ▸ Settles.const _), fun h0 => ?_, fun r hr => ?_⟩
      · rw [hyields, Option.map_eq_none_iff.mp h0]
        rfl
      · obtain ⟨value, hvalue, rfl⟩ := Option.map_eq_some_iff.mp hr
        exact Or.inr ⟨k, l :: ks, h, List.suffix_rfl, by rw [hyields, hvalue]; rfl⟩

namespace QueryIterator

/-- What `setValue` comes to after `a` has moved on to the keys `js`. -/
theorem settles_set (hT : Tracks db T R) (hcopy : Copies R) (iterable : Iterable σ) (index : ℕ)
    {a : ℕ → Option (IdIterator σ)}
    {it : IdIterator σ} {js : List Key} (ha : Returns a it) (h : it.Stands T db R js)
    (hids : ∀ k ∈ js, ∃ cs, k.HasComponents cs) : ∃ o,
      Settles (fun fuel => (a fuel).bind fun iterator => (setValue iterable fuel iterator).map
        (ofSet index)) (o.map (ofSet index)) ∧
        (o = none → yields iterable js = none) ∧ ∀ r ∈ o, AtResult T db R iterable js r.1 r.2 := by
  obtain ⟨o, ho, hnone, hsome⟩ := setValue_settles hT hcopy iterable h hids
  refine ⟨o, ?_, hnone, hsome⟩
  exact Settles.bind (g := fun iterator fuel => (setValue iterable fuel iterator).map (ofSet index))
    (r := fun _ => o.map (ofSet index))
    ha.settles fun y hy => by
      obtain rfl := Option.some.inj hy
      exact ho.map _

theorem next_settles (hT : Tracks db T R) (hcopy : Copies R) (iterable : Iterable σ) (index : ℕ)
    {it : IdIterator σ} {k : Key}
    {js : List Key} (value : BString) (h : it.Stands T db R (k :: js))
    (hids : ∀ k ∈ js, ∃ cs, k.HasComponents cs) : ∃ o,
      Settles (fun fuel => (⟨it, value, index⟩ : QueryIterator σ).next iterable fuel)
        (o.map (ofSet index)) ∧
        (o = none → yields iterable js = none) ∧ ∀ r ∈ o, AtResult T db R iterable js r.1 r.2 := by
  obtain ⟨it', hr, h'⟩ := h.next hT
  exact settles_set hT hcopy iterable index hr h' hids

theorem begin_settles (hT : Tracks db T R) (hcopy : Copies R) {iterable : Iterable σ}
    (hdb : iterable.db = db)
    (hR : R iterable.path []) {ks : List Key} (hks : T.keys = ks.map Key.bits)
    (hids : ∀ k ∈ ks, ∃ cs, k.HasComponents cs)
    (index : ℕ) :
    ∃ o, Settles (fun fuel => QueryIterator.begin fuel iterable index) (o.map (ofSet index)) ∧
      (o = none → yields iterable ks = none) ∧ ∀ r ∈ o, AtResult T db R iterable ks r.1 r.2 := by
  subst hdb
  have hpath : R (PathBase.copy (PathBase.copy iterable.path)) [] :=
    hcopy (hcopy hR (Or.inl rfl)) (Or.inl rfl)
  obtain ⟨it, hr, h⟩ := IdIterator.Stands.begin hT hpath hks
  exact settles_set hT hcopy iterable index hr h hids

end QueryIterator

/-- From a result on the iteration gives the results that are left. -/
theorem toEnd_settles (hT : Tracks db T R) (hcopy : Copies R) (iterable : Iterable σ) (index : ℕ)
    (ks : List Key)
    {it : IdIterator σ} {value : BString} (h : AtResult T db R iterable ks it value)
    (hids : ∀ k ∈ ks, ∃ cs, k.HasComponents cs) :
    Settles (fun fuel => QueryIterator.toEnd iterable fuel ⟨it, value, index⟩)
      (yields iterable ks) := by
  rcases h with ⟨h, hyields⟩ | ⟨k, js, h, hsuffix, hyields⟩
  · rw [hyields]
    refine (Settles.const _).step fun fuel => ?_
    rw [QueryIterator.toEnd, h.1]
  · have hlt : js.length < ks.length := hsuffix.length_le
    have hjs : ∀ k ∈ js, ∃ cs, k.HasComponents cs :=
      fun k hk => hids k (hsuffix.subset (List.mem_cons_of_mem _ hk))
    obtain ⟨o, hnext, hnone, hsome⟩ :=
      QueryIterator.next_settles hT hcopy iterable index value h hjs
    have hrest :=
      Settles.bind (g := fun next fuel => (QueryIterator.toEnd iterable fuel next).map
      ((k, value) :: ·))
      (r := fun _ => (yields iterable js).map ((k, value) :: ·)) hnext fun y hy => by
        obtain ⟨r, hr, rfl⟩ := Option.map_eq_some_iff.mp hy
        exact (toEnd_settles hT hcopy iterable index js (hsome r hr) hjs).map _
    have heq :
      ((o.map (QueryIterator.ofSet index)).bind fun _ => (yields iterable js).map
      ((k, value) :: ·)) =
        yields iterable ks := by
      rw [hyields]
      cases o with
      | none => rw [hnone rfl]; rfl
      | some r => rfl
    refine (heq ▸ hrest).step fun fuel => ?_
    rw [QueryIterator.toEnd, h.1]
    rfl
termination_by ks.length

theorem results_settles (hT : Tracks db T R) (hcopy : Copies R) {iterable : Iterable σ}
    (hdb : iterable.db = db)
    (hR : R iterable.path []) {ks : List Key} (hks : T.keys = ks.map Key.bits)
    (hids : ∀ k ∈ ks, ∃ cs, k.HasComponents cs)
    (index : ℕ) : Settles (iterable.results index) (yields iterable ks) := by
  obtain ⟨o, hbegin, hnone, hsome⟩ := QueryIterator.begin_settles hT hcopy hdb hR hks hids index
  have hall := Settles.bind (g := fun it fuel => QueryIterator.toEnd iterable fuel it)
    (r := fun _ => yields iterable ks) hbegin
    fun y hy => by
      obtain ⟨r, hr, rfl⟩ := Option.map_eq_some_iff.mp hy
      exact toEnd_settles hT hcopy iterable index ks (hsome r hr) hids
  have heq :
      ((o.map (QueryIterator.ofSet index)).bind fun _ => yields iterable ks) =
        yields iterable ks := by
    cases o with
    | none => rw [hnone rfl]; rfl
    | some r => rfl
  rw [heq] at hall
  exact hall

end

/-! ### The ids that are left -/

/-- The ids that do not begin the next one. -/
def kept : List Key → List Key
  | [] => []
  | [k] => [k]
  | k :: l :: ks => if beginsId k l then kept (l :: ks) else k :: kept (l :: ks)

theorem yields_kept {σ : Type} (iterable : Iterable σ) : ∀ ks : List Key,
    (yields iterable ks).map (List.map Prod.fst) = if ∀ k ∈ kept ks,
      (iterable.toString k).isSome then some (kept ks) else none
  | [] => by simp [yields, kept]
  | [k] => by cases h : iterable.toString k <;> simp [yields, kept, h]
  | k :: l :: ks => by
    have ih := yields_kept iterable (l :: ks)
    rw [yields, kept]
    by_cases hbegins : beginsId k l = true
    · rw [if_pos hbegins, if_pos hbegins]
      exact ih
    · rw [if_neg hbegins, if_neg hbegins]
      cases h : iterable.toString k with
      | none => simp [h]
      | some value =>
        have hmap : (((yields iterable (l :: ks)).map ((k, value) :: ·)).map (List.map Prod.fst)) =
            ((yields iterable (l :: ks)).map (List.map Prod.fst)).map (k :: ·) := by
          rw [Option.map_map, Option.map_map]
          rfl
        rw [Option.bind_some, hmap, ih]
        simp only [List.forall_mem_cons, h, Option.isSome_some, true_and]
        split_ifs <;> rfl

theorem beginsId_eq {k l : Key} {cs ds : List (ℕ × Component)} (hk : k.HasComponents cs)
    (hl : l.HasComponents ds) :
    beginsId k l = decide (Begins cs ds) := by
  obtain ⟨i, hi⟩ := hk
  obtain ⟨j, hj⟩ := hl
  rw [beginsId, hi, hj, startsWith_idBits]
  rfl

/-- What stands between an id and one that it begins is begun by it. -/
theorem beginsId_of_between {k l m : Key} (hk : ∃ cs, k.HasComponents cs)
    (hl : ∃ cs, l.HasComponents cs)
    (hm : ∃ cs, m.HasComponents cs) (hkl : k.bits < l.bits) (hlm : l.bits < m.bits)
    (h : beginsId k m = true) :
    beginsId k l = true := by
  obtain ⟨cs, hcs⟩ := hk
  obtain ⟨ds, hds⟩ := hl
  obtain ⟨es, hes⟩ := hm
  rw [beginsId_eq hcs hes, decide_eq_true_eq] at h
  rw [beginsId_eq hcs hds, decide_eq_true_eq]
  obtain ⟨i, hi⟩ := hcs
  obtain ⟨j, hj⟩ := hds
  obtain ⟨n, hn⟩ := hes
  rw [hi, hj] at hkl
  rw [hj, hn] at hlm
  unfold Begins at h ⊢
  split_ifs at h ⊢ with h0
  · subst h0 h
    -- the ids of the root start with a zero after the first one
    have hroot : ∀ i, true :: encode false <+: idBits [] i := fun i => by
      rw [idBits_eq]
      exact ⟨_, rfl⟩
    have hp := isPrefix_of_between (hroot i) (hroot n) hkl hlm
    cases ds with
    | nil => rfl
    | cons d ds =>
      rw [idBits_eq, componentsBits_next, List.cons_prefix_cons,
        ← List.append_nil (encode false)] at hp
      exact absurd hp.2 not_false_isPrefix_true
  · exact idPrefixBits_isPrefix.mp (isPrefix_of_between (idPrefixBits_isPrefix.mpr List.prefix_rfl)
      (idPrefixBits_isPrefix.mpr h) hkl hlm)

/-- The ids in their order. -/
structure Sorted (ks : List Key) : Prop where
  sorted : (ks.map Key.bits).Pairwise (· < ·)
  ids : ∀ k ∈ ks, ∃ cs, k.HasComponents cs

theorem Sorted.tail {k : Key} {ks : List Key} (h : Sorted (k :: ks)) : Sorted ks :=
  ⟨(List.pairwise_cons.mp h.sorted).2, fun l hl => h.ids l (List.mem_cons_of_mem k hl)⟩

theorem Sorted.lt {k l : Key} {ks : List Key} (h : Sorted (k :: ks)) (hl : l ∈ ks) :
    k.bits < l.bits :=
  (List.pairwise_cons.mp h.sorted).1 _ (List.mem_map_of_mem hl)

theorem Sorted.lt_or_lt : ∀ {ks : List Key}, Sorted ks → ∀ {k l : Key}, k ∈ ks → l ∈ ks → k ≠ l →
    k.bits < l.bits ∨ l.bits < k.bits
  | j :: ks, h, k, l, hk, hl, hne => by
    rcases List.mem_cons.mp hk with rfl | hks
    · exact Or.inl (h.lt ((List.mem_cons.mp hl).resolve_left hne.symm))
    · rcases List.mem_cons.mp hl with rfl | hls
      · exact Or.inr (h.lt hks)
      · exact h.tail.lt_or_lt hks hls hne

/-- The last of the ids that have a property. -/
theorem Sorted.exists_last {P : Key → Prop} : ∀ {ks : List Key}, Sorted ks → (∃ k ∈ ks, P k) →
    ∃ k ∈ ks, P k ∧ ∀ l ∈ ks, k.bits < l.bits → ¬ P l
  | j :: ks, h, ⟨k, hk, hP⟩ => by
    by_cases hks : ∃ k ∈ ks, P k
    · obtain ⟨m, hm, hPm, hlast⟩ := h.tail.exists_last hks
      refine ⟨m, List.mem_cons_of_mem j hm, hPm, fun l hl hlt => ?_⟩
      rcases List.mem_cons.mp hl with rfl | hls
      · exact absurd hlt (List.lt_asymm (h.lt hm))
      · exact hlast l hls hlt
    · have hkj : k = j := (List.mem_cons.mp hk).resolve_right fun hk => hks ⟨k, hk, hP⟩
      subst hkj
      refine ⟨k, List.mem_cons_self, hP, fun l hl hlt hPl => ?_⟩
      rcases List.mem_cons.mp hl with rfl | hl
      · exact List.lt_irrefl _ hlt
      · exact hks ⟨l, hl, hPl⟩

theorem mem_kept : ∀ {ks : List Key}, Sorted ks → ∀ {k : Key},
    k ∈ kept ks ↔ k ∈ ks ∧ ∀ l ∈ ks, k.bits < l.bits → beginsId k l = false
  | [], _, k => by simp [kept]
  | [j], _, k => by
    rw [kept, List.mem_singleton]
    refine ⟨?_, And.left⟩
    rintro rfl
    refine ⟨rfl, fun l hl hlt => ?_⟩
    rw [List.mem_singleton.mp hl] at hlt
    exact absurd hlt (List.lt_irrefl _)
  | j :: l :: ks, h, k => by
    have ih := mem_kept h.tail (k := k)
    have hjl : j.bits < l.bits := h.lt List.mem_cons_self
    by_cases hkj : k = j
    · subst hkj
      have hnot : ∀ m ∈ l :: ks, k ≠ m := fun m hm heq => List.lt_irrefl _ (heq ▸ h.lt hm)
      have hkept : k ∉ kept (l :: ks) := fun hk => hnot k (ih.mp hk).1 rfl
      have hmem : k ∈ kept (k :: l :: ks) ↔ beginsId k l = false := by
        rw [kept]
        split_ifs with hbegins
        · simp [hkept, hbegins]
        · simp [hbegins]
      rw [hmem]
      constructor
      · intro hfalse
        refine ⟨List.mem_cons_self, fun m hm hlt => ?_⟩
        rcases List.mem_cons.mp hm with rfl | hm
        · exact absurd hlt (List.lt_irrefl _)
        · rcases List.mem_cons.mp hm with rfl | hmks
          · exact hfalse
          · by_contra htrue
            rw [Bool.not_eq_false] at htrue
            have := beginsId_of_between (h.ids k List.mem_cons_self) (h.ids l (by simp))
              (h.ids m (by simp [hmks])) hjl
              (h.tail.lt hmks) htrue
            rw [hfalse] at this
            cases this
      · rintro ⟨-, hall⟩
        exact hall l (by simp) hjl
    · have hmem : k ∈ kept (j :: l :: ks) ↔ k ∈ kept (l :: ks) := by
        rw [kept]
        split_ifs
        · rfl
        · rw [List.mem_cons, or_iff_right hkj]
      rw [hmem, ih]
      constructor
      · rintro ⟨hk, hall⟩
        refine ⟨List.mem_cons_of_mem j hk, fun m hm hlt => ?_⟩
        rcases List.mem_cons.mp hm with rfl | hm
        · exact absurd hlt (List.lt_asymm (h.lt hk))
        · exact hall m hm hlt
      · rintro ⟨hk, hall⟩
        exact ⟨(List.mem_cons.mp hk).resolve_left hkj, fun m hm hlt =>
          hall m (List.mem_cons_of_mem j hm) hlt⟩

/-- The first id is below the second one. -/
def Key.Below (b a : Key) : Prop :=
  ∃ cs ds, a.HasComponents cs ∧ b.HasComponents ds ∧ cs <+: ds ∧ cs ≠ ds

theorem Key.HasComponents.unique {key : Key} {cs ds : List (ℕ × Component)}
    (h : key.HasComponents cs)
    (h' : key.HasComponents ds) : cs = ds := by
  obtain ⟨i, hi⟩ := h
  obtain ⟨j, hj⟩ := h'
  exact (idBits_injective (hi.symm.trans hj)).1

theorem Key.Below.lt {a b : Key} (h : b.Below a) : a.bits < b.bits := by
  obtain ⟨cs, ds, ⟨i, hi⟩, ⟨j, hj⟩, hpre, hne⟩ := h
  rw [hi, hj]
  exact idBits_lt hpre hne i j

theorem begins_self (cs : List (ℕ × Component)) : Begins cs cs := by
  unfold Begins
  split_ifs with h
  · exact h
  · exact List.prefix_rfl

/-- An id that is left has none with the same components after it. -/
theorem not_lt_of_kept {ks : List Key} (h : Sorted ks) {a b : Key} (ha : a ∈ kept ks) (hb : b ∈ ks)
    {cs : List (ℕ × Component)}
    (hacs : a.HasComponents cs) (hbcs : b.HasComponents cs) : ¬ a.bits < b.bits := by
  intro hlt
  have hfalse := ((mem_kept h).mp ha).2 b hb hlt
  rw [beginsId_eq hacs hbcs, decide_eq_false_iff_not] at hfalse
  exact hfalse (begins_self cs)

/-- The ids that are left are those with nothing below them exactly if the root
is not there with others, and ids with the same components have something
below. -/
theorem kept_leaves {ks : List Key} (h : Sorted ks) :
    (∀ k, k ∈ kept ks ↔ k ∈ ks ∧ ∀ b ∈ ks, ¬ b.Below k) ↔
    (∀ a ∈ ks, a.HasComponents [] → ∀ b ∈ ks, b = a) ∧
      ∀ a ∈ ks, ∀ b ∈ ks, ∀ cs, a.HasComponents cs → b.HasComponents cs → a ≠ b → ∃ d ∈ ks,
        d.Below a := by
  constructor
  · intro hkept
    have hsame : ∀ a ∈ ks, ∀ b ∈ ks, ∀ cs, a.HasComponents cs → b.HasComponents cs → a ≠ b →
      ∃ d ∈ ks, d.Below a := by
      intro a ha b hb cs hacs hbcs hne
      by_contra hnot
      have hnone : ∀ d ∈ ks, ¬ d.Below a := fun d hd hbelow => hnot ⟨d, hd, hbelow⟩
      have hnone' : ∀ d ∈ ks, ¬ d.Below b := by
        rintro d hd ⟨es, ds, hes, hds, hpre, hnees⟩
        obtain rfl := hes.unique hbcs
        exact hnone d hd ⟨es, ds, hacs, hds, hpre, hnees⟩
      have hak := (hkept a).mpr ⟨ha, hnone⟩
      have hbk := (hkept b).mpr ⟨hb, hnone'⟩
      rcases h.lt_or_lt ha hb hne with hlt | hlt
      · exact not_lt_of_kept h hak hb hacs hbcs hlt
      · exact not_lt_of_kept h hbk ha hbcs hacs hlt
    refine ⟨fun a ha hroot b hb => ?_, hsame⟩
    -- the last root is left, so everything is a root
    obtain ⟨r, hr, hrroot, hlast⟩ := h.exists_last (P := fun key => key.HasComponents [])
      ⟨a, ha, hroot⟩
    have hrk : r ∈ kept ks := by
      refine (mem_kept h).mpr ⟨hr, fun l hl hlt => ?_⟩
      obtain ⟨ds, hds⟩ := h.ids l hl
      rw [beginsId_eq hrroot hds, decide_eq_false_iff_not, Begins, if_pos rfl]
      rintro rfl
      exact hlast l hl hlt hds
    have hroots : ∀ l ∈ ks, l.HasComponents [] := by
      intro l hl
      obtain ⟨ds, hds⟩ := h.ids l hl
      by_cases h0 : ds = []
      · exact h0 ▸ hds
      · exact absurd ⟨[], ds, hrroot, hds, List.nil_prefix, Ne.symm h0⟩ (((hkept r).mp hrk).2 l hl)
    by_contra hne
    obtain ⟨d, hd, cs, ds, hcs, hds, -, hnecs⟩ :=
      hsame a ha b hb [] hroot (hroots b hb) (Ne.symm hne)
    exact hnecs ((hcs.unique hroot).trans ((hroots d hd).unique hds))
  · rintro ⟨hroot, hsame⟩ k
    rw [mem_kept h]
    refine and_congr_right fun hk => ?_
    obtain ⟨cs, hcs⟩ := h.ids k hk
    constructor
    · intro hall b hb hbelow
      have hfalse := hall b hb hbelow.lt
      obtain ⟨cs', ds, hcs', hds, hpre, hne⟩ := hbelow
      rw [beginsId_eq hcs' hds, decide_eq_false_iff_not, Begins] at hfalse
      split_ifs at hfalse with h0
      · subst h0
        obtain rfl := hroot k hk hcs' b hb
        exact hne (hcs'.unique hds)
      · exact hfalse hpre
    · intro hall l hl hlt
      obtain ⟨ds, hds⟩ := h.ids l hl
      have hne : k ≠ l := by
        rintro rfl
        exact List.lt_irrefl _ hlt
      rw [beginsId_eq hcs hds, decide_eq_false_iff_not, Begins]
      split_ifs with h0
      · subst h0
        exact absurd (hroot k hk hcs l hl) (Ne.symm hne)
      · intro hpre
        by_cases heq : cs = ds
        · subst heq
          obtain ⟨d, hd, hbelow⟩ := hsame k hk l hl cs hcs hds hne
          exact hall d hd hbelow
        · exact hall l hl ⟨cs, ds, hcs, hds, hpre, heq⟩

/-! ### The results under a path -/

/-- One iteration gives the ids of the set, each once and in their order. -/
def Iterable.Yields {σ : Type} [PathBase σ] (iterable : Iterable σ) (S : Set Key) : Prop :=
  ∀ index, ∃ results, Returns (iterable.results index) results ∧
    (results.map fun r => r.1.bits).Pairwise (· < ·) ∧
    ∀ key, key ∈ results.map Prod.fst ↔ key ∈ S

/-- A path that was walked to is a cursor on the keys under it. -/
theorem Database.Stores.cursor {db : Database} {M : Store} (h : db.Stores M) (path : List Key) :
    ∃ (T : BitTree) (R : Path → List Bool → Prop), Tracks (Path.getAll db .root path).2 T R ∧
      R (Path.getAll db .root path).1 [] ∧ Copies R ∧ ∀ key : Key, key.bits ∈ T.keys ↔
        (M (path ++ [key])).isSome := by
  obtain ⟨Γ₀, L₀, h₀, hM₀⟩ := h
  obtain ⟨r, hr, h0⟩ := h₀.root
  obtain ⟨Γ, L, n, hn, h, hw, hg⟩ := h₀.getAll path (p := .root) hr h0.symm
  rw [List.nil_append] at hw hg
  have hM := hM₀.grown h.toWF hg
  have hp : (M.visit path path).isSome := by rw [hM.isSome, hw]; rfl
  refine ⟨h.tree hM hp, StandsAt L path, h.tracks hM hp, ⟨n, by simpa using hw, hn.symm⟩,
    fun hx _ => hx, fun key => ?_⟩
  have hbelow : M.visit path (path ++ [key]) = M (path ++ [key]) := by
    refine if_neg fun hpre => ?_
    have := hpre.length_le
    rw [List.length_append, List.length_singleton] at this
    omega
  rw [h.mem_keys_tree hM hp, ← hbelow]
  constructor
  · rintro ⟨k, hk, hs⟩
    rwa [← Key.ext hk]
  · exact fun hs => ⟨key, rfl, hs⟩

/-- The URL of an id is read if its first component is for the user. -/
def ReadableBy (auth : Authentication) (key : Key) : Prop :=
  ∀ cs, key.HasComponents cs → cs.length ≤ 1 ∨ ∀ c ∈ cs.head?, c.2.text = text "public" ∨
    c.2.text = auth.userId

theorem toString_isSome {σ : Type} (iterable : Iterable σ) {key : Key} {cs : List (ℕ × Component)}
    (h : key.HasComponents cs)
    (hfirst : FirstString cs) : (iterable.toString key).isSome ↔ ReadableBy iterable.auth key := by
  obtain ⟨i, hi⟩ := id h
  have hread : (iterable.toString key).isSome =
    ((keyToString iterable.auth key.bits).map Prod.snd).isSome := by
    unfold Iterable.toString
    rw [Option.isSome_map, Option.isSome_map]
  rw [hread, hi, keyToString_idBits iterable.auth i hfirst]
  have hkey : ReadableBy iterable.auth key ↔
      (cs.length ≤ 1 ∨ ∀ c ∈ cs.head?, c.2.text = text "public" ∨
        c.2.text = iterable.auth.userId) :=
    ⟨fun hr => hr cs h, fun hr ds hds => h.unique hds ▸ hr⟩
  rw [hkey]
  split_ifs with hcond
  · exact iff_of_true rfl hcond
  · exact iff_of_false (by simp) hcond

/-- The keys of a store are in their order. -/
theorem exists_sorted {T : BitTree} : ∃ ks : List Key, T.keys = ks.map Key.bits ∧
    (ks.map Key.bits).Pairwise (· < ·) := by
  obtain ⟨ks, hks⟩ : ∃ ks : List Key, ks.map encode = T.keys :=
    exists_items fun k hk => ⟨⟨k, (T.mem_keys.mp hk).1⟩, rfl⟩
  exact ⟨ks, hks.symm, hks ▸ T.sorted_keys⟩

theorem kept_sublist : ∀ ks : List Key, (kept ks).Sublist ks
  | [] => List.Sublist.refl _
  | [_] => List.Sublist.refl _
  | k :: l :: ks => by
    rw [kept]
    split_ifs
    · exact (kept_sublist (l :: ks)).cons k
    · exact (kept_sublist (l :: ks)).cons_cons k

/-- The results are the ids that are left, if their URLs are read. -/
theorem Iterable.yields_iff {σ : Type} [PathBase σ] {iterable : Iterable σ} {ks : List Key}
    (h : Sorted ks)
    (hsettles : ∀ index, Settles (iterable.results index) (yields iterable ks)) (S : Set Key) :
    iterable.Yields S ↔ (∀ k ∈ kept ks, (iterable.toString k).isSome) ∧ ∀ k, k ∈ kept ks ↔
      k ∈ S := by
  have hyields := yields_kept iterable ks
  constructor
  · intro hall
    obtain ⟨results, hr, -, hmem⟩ := hall 0
    rw [(hsettles 0).returns_iff.mp hr, Option.map_some] at hyields
    split_ifs at hyields with hread
    refine ⟨hread, fun k => ?_⟩
    rw [← Option.some.inj hyields]
    exact hmem k
  · rintro ⟨hread, hmem⟩ index
    rw [if_pos hread, Option.map_eq_some_iff] at hyields
    obtain ⟨results, hr, hkept⟩ := hyields
    refine ⟨results, (hsettles index).returns_iff.mpr hr, ?_, fun key => ?_⟩
    · have hsorted : ((kept ks).map Key.bits).Pairwise (· < ·) :=
        h.sorted.sublist ((kept_sublist ks).map _)
      rw [← hkept, List.map_map] at hsorted
      exact hsorted
    · rw [hkept]
      exact hmem key

/-- The ids of a set that have nothing below them in it. -/
def leaves (S : Set Key) : Set Key := {key ∈ S | ∀ b ∈ S, ¬ b.Below key}

/-- The components of an id of a node. -/
theorem exists_firstString {key : Key} (h : ∃ L node, key.bits = toKey L node) :
    ∃ cs, key.HasComponents cs ∧ FirstString cs := by
  obtain ⟨L, node, hnode⟩ := h
  unfold toKey JSONPath.index at hnode
  rw [toKeyFrom_nil] at hnode
  exact ⟨_, ⟨_, hnode⟩, firstString_idComponents _⟩

/-- The ids under a path of a store, in their order, and a cursor on them. -/
theorem Database.Stores.ids {db : Database} {M : Store} (h : db.Stores M) (path : List Key)
    (hids : ∀ key ∈ CursorExpr.under M path, ∃ L node, key.bits = toKey L node) :
    ∃ (T : BitTree) (R : Path → List Bool → Prop) (ks : List Key),
      Tracks (Path.getAll db .root path).2 T R ∧
      R (Path.getAll db .root path).1 [] ∧ Copies R ∧ T.keys = ks.map Key.bits ∧ Sorted ks ∧
      (∀ key, key ∈ ks ↔ key ∈ CursorExpr.under M path) ∧ ∀ key ∈ ks, ∃ cs, key.HasComponents cs ∧
        FirstString cs := by
  obtain ⟨T, R, hT, hR, hcopy, hkeys⟩ := h.cursor path
  obtain ⟨ks, hks, hsorted⟩ := exists_sorted (T := T)
  have hmem : ∀ key, key ∈ ks ↔ key ∈ CursorExpr.under M path := by
    intro key
    show key ∈ ks ↔ (M (path ++ [key])).isSome
    rw [← hkeys, hks]
    constructor
    · exact fun hk => List.mem_map_of_mem hk
    · intro hk
      obtain ⟨k, hk, heq⟩ := List.mem_map.mp hk
      rwa [← Key.ext heq]
  have hcomponents : ∀ key ∈ ks, ∃ cs, key.HasComponents cs ∧ FirstString cs := fun key hkey =>
    exists_firstString (hids key ((hmem key).mp hkey))
  exact ⟨T, R, ks, hT, hR, hcopy, hks, ⟨hsorted, fun k hk => (hcomponents k hk).imp fun _ h => h.1⟩,
    hmem, hcomponents⟩

/-- The results of a cursor on ids. -/
theorem Iterable.yields_leaves_iff {σ : Type} [PathBase σ] {db : Database} {T : BitTree}
    {R : σ → List Bool → Prop}
    (hT : Tracks db T R) (hcopy : Copies R) {iterable : Iterable σ} (hdb : iterable.db = db)
    (hR : R iterable.path [])
    {ks : List Key} (hks : T.keys = ks.map Key.bits) (hsort : Sorted ks)
    (hcomponents : ∀ key ∈ ks, ∃ cs, key.HasComponents cs ∧ FirstString cs) {S : Set Key}
    (hmem : ∀ key, key ∈ ks ↔ key ∈ S) :
    iterable.Yields (leaves S) ↔
      (∀ a ∈ S, a.HasComponents [] → ∀ b ∈ S, b = a) ∧
      (∀ a ∈ S, ∀ b ∈ S, ∀ cs, a.HasComponents cs → b.HasComponents cs → a ≠ b → ∃ d ∈ S,
        d.Below a) ∧
      ∀ a ∈ leaves S, ReadableBy iterable.auth a := by
  rw [Iterable.yields_iff hsort (results_settles hT hcopy hdb hR hks hsort.ids)]
  have hleaves := kept_leaves hsort
  simp only [hmem] at hleaves
  rw [← and_assoc, ← hleaves, and_comm]
  refine and_congr_right fun hkept => ?_
  have hread : ∀ k ∈ S, ((iterable.toString k).isSome ↔ ReadableBy iterable.auth k) := by
    intro k hk
    obtain ⟨cs, hcs, hfirst⟩ := hcomponents k ((hmem k).mpr hk)
    exact toString_isSome iterable hcs hfirst
  constructor
  · exact fun hall a ha => (hread a ha.1).mp (hall a ((hkept a).mpr ha))
  · intro hall k hk
    exact (hread k ((hkept k).mp hk).1).mpr (hall k ((hkept k).mp hk))

/-- The results under a path of a store. -/
theorem Database.Stores.results {db : Database} {M : Store} (h : db.Stores M)
    (auth : Authentication) (path : List Key)
    (hids : ∀ key ∈ CursorExpr.under M path, ∃ L node, key.bits = toKey L node) :
    (Iterable.new auth (Path.getAll db .root path).2 (Path.getAll db .root path).1).Yields
    (leaves (CursorExpr.under M path)) ↔
      (∀ a ∈ CursorExpr.under M path, a.HasComponents [] → ∀ b ∈ CursorExpr.under M path, b = a) ∧
      (∀ a ∈ CursorExpr.under M path, ∀ b ∈ CursorExpr.under M path, ∀ cs, a.HasComponents cs →
        b.HasComponents cs → a ≠ b →
        ∃ d ∈ CursorExpr.under M path, d.Below a) ∧
      ∀ a ∈ leaves (CursorExpr.under M path), ReadableBy auth a := by
  obtain ⟨T, R, ks, hT, hR, hcopy, hks, hsort, hmem, hcomponents⟩ := h.ids path hids
  exact Iterable.yields_leaves_iff hT hcopy rfl (hcopy hR (Or.inl rfl)) hks hsort hcomponents hmem

/-- A public node, at an origin. -/
def publicNode (property : BString) (index : ℕ) : JSONPath :=
  ⟨[(.string property, index), (.string (text "public"), 2), (.string (text "https://test"), 1)], 0⟩

/-- Data for every one of the ids. -/
def storing (keys : List Key) : List Op := keys.map fun key => ⟨[key], .setData [1]⟩

/-- The two ids `public/a` and `public/A`. -/
def letterCases : List Op :=
  storing [(publicNode (text "a") 3).key .c, (publicNode (text "A") 4).key .c]

theorem isSome_setData (M : Store) (k key : Key) (value : BString) :
    ((Op.apply M ⟨[k], .setData value⟩).2 [key]).isSome ↔ key = k ∨ (M [key]).isSome := by
  by_cases h : key = k
  · subst h
    exact iff_of_true (by simp [Op.apply, Action.apply, Store.put]) (Or.inl rfl)
  · have hne : [key] ≠ [k] := fun heq => h (List.cons.inj heq).1
    have hpre : ¬ [key] <+: [k] := fun hp => hne (hp.eq_of_length rfl)
    have hvalue : (Op.apply M ⟨[k], .setData value⟩).2 [key] = M [key] := by
      show Function.update (M.visit [k]) [k] _ [key] = _
      rw [Function.update_of_ne hne]
      exact if_neg hpre
    rw [hvalue, or_iff_right h]

theorem isSome_storing (key : Key) : ∀ (keys : List Key) (M : Store),
    ((applyAll M (storing keys)).2 [key]).isSome ↔ key ∈ keys ∨ (M [key]).isSome
  | [], M => by simp [storing, applyAll]
  | k :: keys, M => by
    have hcons : (applyAll M (storing (k :: keys))).2 =
      (applyAll (Op.apply M ⟨[k], .setData [1]⟩).2 (storing keys)).2 := rfl
    rw [hcons, isSome_storing key keys, isSome_setData, List.mem_cons, ← or_assoc,
      or_comm (a := key ∈ keys)]

theorem isSome_storing_root : ∀ (keys : List Key) (M : Store), (M []).isSome →
    ((applyAll M (storing keys)).2 []).isSome
  | [], _, h => h
  | k :: keys, M, _ => by
    refine isSome_storing_root keys _ ?_
    show (Function.update (M.visit [k]) [k] _ []).isSome
    rw [Function.update_of_ne (by simp), Store.visit, if_pos List.nil_prefix]
    rfl

/-- The keys of the store are those that were stored. -/
theorem mem_storing (keys : List Key) (key : Key) :
    key ∈ CursorExpr.under (applyAll .empty (storing keys)).2 [] ↔ key ∈ keys := by
  show ((applyAll .empty (storing keys)).2 [key]).isSome ↔ _
  rw [isSome_storing]
  simp [Store.empty]

theorem toKey_publicNode {property lower : BString} (index : ℕ)
    (h : lowerKey .c property = some lower) :
    toKey .c (publicNode property index) = idBits [(2, .string (text "public")), (0, .string lower)]
      index := by
  have hhttp : isHttp Locale.c (.string property) = false := by simp [isHttp, h]
  have hresolve :
      resolve Locale.c (publicNode property index).steps = (publicNode property index).steps := by
    simp [publicNode, resolve, redirect, hhttp]
  unfold toKey JSONPath.index
  rw [toKeyFrom_nil, hresolve]
  have hcomponents : idComponents Locale.c (publicNode property index).steps =
      [(2, .string (text "public")), (0, .string lower)] := by
    simp [publicNode, idComponents, lowerComponent, h]
    decide
  rw [hcomponents]
  rfl

/-- **The results are the ids with nothing below them**, of a set of ids under
a path, exactly if the root is not among others, of ids with the same
components each has something below it, and the results are public or of the
user. -/
theorem results_leaves (auth : Authentication) (ops : List Op) (path : List Key)
    (hids : ∀ key ∈ CursorExpr.under (applyAll .empty ops).2 path, ∃ L node,
      key.bits = toKey L node) :
    let S := CursorExpr.under (applyAll .empty ops).2 path
    ∃ answers db, runAll .create ops = some (answers, db) ∧
      ((Iterable.new auth (Path.getAll db .root path).2 (Path.getAll db .root path).1).Yields
        (leaves S) ↔
        (∀ a ∈ S, a.HasComponents [] → ∀ b ∈ S, b = a) ∧
        (∀ a ∈ S, ∀ b ∈ S, ∀ cs, a.HasComponents cs → b.HasComponents cs → a ≠ b → ∃ d ∈ S,
          d.Below a) ∧
        ∀ a ∈ leaves S, ReadableBy auth a) := by
  obtain ⟨db, he, hs⟩ := stores_create.runAll ops
  exact ⟨_, db, he, hs.results auth path hids⟩

/-- A property of a public node. -/
def publicBelow : JSONPath :=
  ⟨[(.string (text "c"), 5), (.string (text "b"), 4), (.string (text "public"), 2),
    (.string (text "https://test"), 1)], 0⟩

/-- The ids `public/a`, `public/b` and `public/b/c`. -/
def publicIds : List Key :=
  [(publicNode (text "a") 3).key .c, (publicNode (text "b") 4).key .c, publicBelow.key .c]

theorem results_leaves_two :
    let S := CursorExpr.under (applyAll .empty (storing publicIds)).2 []
    ∃ answers db, runAll .create (storing publicIds) = some (answers, db) ∧
      ((Iterable.new ⟨[], []⟩ (Path.getAll db .root []).2 (Path.getAll db .root []).1).Yields
        (leaves S) ↔
        (∀ a ∈ S, a.HasComponents [] → ∀ b ∈ S, b = a) ∧
        (∀ a ∈ S, ∀ b ∈ S, ∀ cs, a.HasComponents cs → b.HasComponents cs → a ≠ b → ∃ d ∈ S,
          d.Below a) ∧
        ∀ a ∈ leaves S, ReadableBy ⟨[], []⟩ a) :=
  results_leaves ⟨[], []⟩ (storing publicIds) [] fun key hkey => by
    have hmem := (mem_storing _ key).mp hkey
    simp only [publicIds, List.mem_cons, List.not_mem_nil, or_false] at hmem
    rcases hmem with rfl | rfl | rfl <;> exact ⟨_, _, rfl⟩

/-- Of `public/a` and `public/A` the first is lost. -/
theorem results_letterCases : ¬ ∀ (auth : Authentication) (ops : List Op) (path : List Key),
    (∀ key ∈ CursorExpr.under (applyAll .empty ops).2 path, ∃ L node, key.bits = toKey L node) →
      ∃ answers db, runAll .create ops = some (answers, db) ∧
        (Iterable.new auth (Path.getAll db .root path).2 (Path.getAll db .root path).1).Yields
          (leaves (CursorExpr.under (applyAll .empty ops).2 path)) := by
  intro h
  have hids : ∀ key ∈ CursorExpr.under (applyAll .empty letterCases).2 [], ∃ L node,
    key.bits = toKey L node := by
    intro key hkey
    have hmem := (mem_storing _ key).mp hkey
    simp only [List.mem_cons, List.not_mem_nil, or_false] at hmem
    rcases hmem with rfl | rfl
    · exact ⟨_, _, rfl⟩
    · exact ⟨_, _, rfl⟩
  obtain ⟨answers, db, he, hyields⟩ := h ⟨[], []⟩ letterCases [] hids
  obtain ⟨db', he', hs⟩ := stores_create.runAll letterCases
  rw [he'] at he
  obtain ⟨-, rfl⟩ := Prod.mk.inj (Option.some.inj he)
  obtain ⟨-, hsame, -⟩ := (hs.results ⟨[], []⟩ [] hids).mp hyields
  have ha := toKey_publicNode 3 (show lowerKey .c (text "a") = some (text "a") by decide)
  have hA := toKey_publicNode 4 (show lowerKey .c (text "A") = some (text "a") by decide)
  have hne : (publicNode (text "a") 3).key .c ≠ (publicNode (text "A") 4).key .c := by
    intro heq
    have hbits : toKey .c (publicNode (text "a") 3) = toKey .c (publicNode (text "A") 4) :=
      congrArg Key.bits heq
    rw [ha, hA] at hbits
    exact absurd (idBits_injective hbits).2 (by decide)
  obtain ⟨d, hd, cs, ds, hcs, hds, -, hnecs⟩ := hsame _ ((mem_storing _ _).mpr (by simp)) _
    ((mem_storing _ _).mpr (by simp)) _ ⟨3, ha⟩ ⟨4, hA⟩ hne
  have hmem := (mem_storing _ d).mp hd
  simp only [List.mem_cons, List.not_mem_nil, or_false] at hmem
  rcases hmem with rfl | rfl
  · exact hnecs (hcs.unique hds)
  · exact hnecs ((hcs.unique ⟨3, ha⟩).trans (Key.HasComponents.unique ⟨4, hA⟩ hds))

end BeeFish
