/-
# The tree of JSON nodes in the file

A `NodeTree` says what a JSON database is for: a tree of typed nodes, whose
children have positions and keys. `Holds` ties it to the content of a file: the
nodes stand where the tree has them, with their types, and the three tables of
the properties agree with its keys. The tables are the properties of a node by
the index of the name, the positions back to this index, and, for each name of
the database, the objects that have it.

What only reads the way of a node up to the root (`parentKey`, `isUserRoot`,
`way`, `id`) leaves the file as it is.

Key definitions: `NodeTree`, `NodeTree.Live`, `NodeTree.node`, `Holds`.
-/
import BeeFish.JSONStore
import BeeFish.File

namespace BeeFish

namespace Spot

variable (a : List ℕ)

theorem up_properties : (node a .properties).up = some (node a .self, JSON.propertiesKey) := by
  cases a <;> rfl

theorem up_property (index : ℕ) :
    (node a (.property index)).up = some (node a .properties, .of index) := by
  cases a <;> rfl

theorem up_positions : (node a .positions).up = some (node a .self, JSON.positionsKey) := by
  cases a <;> rfl

theorem up_position (position : ℕ) :
    (node a (.position position)).up = some (node a .positions, .of position) := by
  cases a <;> rfl

theorem up_children : (node a .children).up = some (node a .self, JSON.childrenKey) := by
  cases a <;> rfl

theorem up_id : (node a .id).up = some (node a .self, JSON.idKey) := by cases a <;> rfl

theorem up_cascade : (node a .cascade).up = some (node a .self, JSON.cascadeKey) := by
  cases a <;> rfl

end Spot

namespace Content

variable {C : Content}

theorem make_place (s t : Spot) (i : ℕ) : (C.make s i).place t = if t = s then some i
    else C.place t :=
  Function.update_apply ..

theorem put_data (s t : Spot) (data : Option BString) : (C.put s data).data t = if t = s then data
    else C.data t :=
  Function.update_apply ..

end Content

/-! ### Trees of nodes -/

/-- A tree of nodes, by their addresses. At a position of a node stands the key
of a child. -/
structure NodeTree where
  type : List ℕ → Option JSONType
  key : List ℕ → ℕ → Option Component
  /-- The positions that were given so far. -/
  count : List ℕ → ℕ

namespace NodeTree

variable (D : NodeTree)

/-- At the address is a node. -/
def Live : List ℕ → Prop
  | [] => True
  | i :: a => Live a ∧ (D.key a i).isSome

structure Sound : Prop where
  inj : ∀ {a i j p}, D.key a i = some (.string p) → D.key a j = some (.string p) → i = j
  le : ∀ {a i c}, D.key a i = some c → 1 ≤ i ∧ i ≤ D.count a
  string : ∀ {a i p}, D.key a i = some (.string p) → D.type a = some .object
  integer : ∀ {a i j}, D.key a i = some (.integer j) → D.type a = some .array ∧ j = i
  live : ∀ {a}, (D.type a).isSome → D.Live a
  undefined : ∀ a, D.type a ≠ some .undefined

/-- The steps from a node up to the root. -/
def steps (place : List ℕ → ℕ) : List ℕ → List (Component × ℕ)
  | [] => []
  | i :: a => ((D.key a i).getD (.string []), place (i :: a)) :: steps place a

/-- The node at an address, where the nodes have these indices. -/
def node (place : List ℕ → ℕ) (a : List ℕ) : JSONPath := ⟨D.steps place a, place []⟩

/-- The id of the node at an address. -/
def id (L : Locale) (place : List ℕ → ℕ) (a : List ℕ) : Key := (D.node place a).key L

variable {D}

theorem Live.of_suffix {a b : List ℕ} (h : D.Live b) (hab : a <:+ b) : D.Live a := by
  induction b with
  | nil => rwa [List.suffix_nil.mp hab]
  | cons i b ih =>
    rcases List.suffix_cons_iff.mp hab with rfl | hab
    · exact h
    · exact ih h.1 hab

theorem Sound.live_of_key (h : D.Sound) {a : List ℕ} {i : ℕ} {c : Component}
    (hc : D.key a i = some c) : D.Live (i :: a) := by
  refine ⟨h.live ?_, by rw [hc]; rfl⟩
  cases c with
  | integer j => rw [(h.integer hc).1]; rfl
  | string p => rw [h.string hc]; rfl

/-- The position of a property. -/
theorem Sound.key_count (h : D.Sound) (a : List ℕ) : D.key a (D.count a + 1) = none := by
  by_contra hne
  obtain ⟨c, hc⟩ := Option.ne_none_iff_exists'.mp hne
  have := (h.le hc).2
  omega

end NodeTree

/-! ### A tree in a file -/

/-- The index of a node. -/
def Content.index (C : Content) (a : List ℕ) : ℕ := (C.place (.node a .self)).getD 0

theorem Content.index_of {C : Content} {a : List ℕ} {i : ℕ} (h : C.place (.node a .self) = some i) :
    C.index a = i := by
  rw [Content.index, h, Option.getD_some]

/-- The content holds the tree: its nodes, and the tables of their
properties. -/
structure Holds (J : JSONDatabase) (D : NodeTree) (C : Content) : Prop where
  sound : D.Sound
  json : C.place (.node [] .self) = some J.json.index
  properties : C.place .properties = some J.properties.index
  words : C.place .words = some J.words.index
  objects : C.place .objects = some J.objects.index
  live : ∀ a, (C.place (.node a .self)).isSome ↔ D.Live a
  type : ∀ a, C.data (.node a .self) = (D.type a).map toData
  count : ∀ a, C.data (.node a .children) = if D.count a = 0 then none
    else some (toData (D.count a))
  entry : ∀ {a i p}, D.key a i = some (.string p) → ∃ x, C.place (.property p) = some x ∧
    C.data (.node a (.property x)) = some (toData i) ∧
      C.data (.node a (.position i)) = some (toData x)
  only : ∀ {a x}, (C.place (.node a (.property x))).isSome → ∃ i p, D.key a i = some (.string p) ∧
    C.place (.property p) = some x
  used : ∀ {p}, (C.place (.property p)).isSome → ∃ a i, D.key a i = some (.string p)
  user : ∀ {p x}, (C.place (.user p x)).isSome ↔ ∃ a i, D.key a i = some (.string p) ∧
    C.place (.node a .self) = some x

theorem ofData_type (τ : JSONType) : (ofData (toData τ) : JSONType) = τ := by cases τ <;> rfl

namespace Holds

variable {J : JSONDatabase} {D : NodeTree} {F : File} {a : List ℕ} {i : ℕ} {p : Path}

theorem exists_place {C : Content} (h : Holds J D C) (ha : D.Live a) :
    ∃ i, C.place (.node a .self) = some i :=
  Option.isSome_iff_exists.mp ((h.live a).mpr ha)

theorem live_of_place {C : Content} (h : Holds J D C) (ha : C.place (.node a .self) = some i) :
    D.Live a :=
  (h.live a).mp (by rw [ha]; rfl)

/-- Only the root of the tree has its index, and no node has index 0. -/
theorem isRoot_iff (h : Holds J D F.content) (hp : F.content.place (.node a .self) = some p.index) :
    JSON.isRoot J p = true ↔ a = [] := by
  have hzero : p.index ≠ 0 := by
    intro h0
    have hroot := F.sound.inj F.sound.root (h0 ▸ hp)
    cases hroot
  simp only [JSON.isRoot, JSONDatabase.rootIndex, Bool.or_eq_true, beq_iff_eq, hzero, or_false]
  constructor
  · intro he
    have hsame := F.sound.inj h.json (he ▸ hp)
    cases hsame
    rfl
  · rintro rfl
    exact Option.some.inj (hp.symm.trans h.json)

end Holds

/-! ### Going up -/

/-- A node stands deeper in the file than its address is long. -/
theorem File.length_lt_depth {F : File} {a : List ℕ} {i : ℕ}
    (h : F.content.place (.node a .self) = some i) :
    a.length < Path.depth F.db := by
  obtain ⟨n, hn, rfl⟩ := File.exists_node h
  have h1 := F.rep.length_le hn
  have h2 := F.rep.place_lt hn
  have hkeys : ∀ ks : List Key, ks.length ≤ (bitsOf ks).length := by
    intro ks
    induction ks with
    | nil => exact Nat.zero_le _
    | cons key ks ih =>
      have hkey : bitsOf (key :: ks) = key.bits ++ bitsOf ks := by simp [bitsOf]
      have hpos := List.length_pos_of_ne_nil key.isCode.ne_nil
      rw [hkey, List.length_append, List.length_cons]
      omega
  have hlen : ∀ a : List ℕ, a.length ≤ (Spot.nodeKeys a).length := by
    intro a
    induction a with
    | nil => exact Nat.zero_le _
    | cons i a ih =>
      simp only [Spot.nodeKeys, List.length_append, List.length_cons, List.length_nil]
      omega
  have h3 := hkeys (Spot.keys (.node a .self))
  have h4 := hlen a
  simp only [Spot.keys, Spot.partKeys, List.append_nil] at h3
  simp only [Spot.keys, Spot.partKeys, List.append_nil] at h1
  unfold Path.depth
  omega

/-- A loop that goes up, with fuel for the depth of the file. -/
theorem meets_upwards {α : Type} {f : ℕ → DatabaseM α} {F : File} {Q : α → File → Prop}
    (h : Meets (fun _ => f (Path.depth F.db)) F Q) : Meets (fun _ => upwards f) F Q := h

namespace JSON

variable {J : JSONDatabase} {L : Locale} {D : NodeTree} {F : File} {a : List ℕ} {i : ℕ} {p : Path}

theorem meets_type (h : Holds J D F.content) (hp : F.content.place (.node a .self) = some p.index) :
    Meets (fun _ => type p) F fun τ F' => F' = F ∧ τ = (D.type a).getD .undefined := by
  refine Meets.bind (Path.meets_hasData hp) ?_
  rintro b F' - ⟨rfl, rfl⟩
  rw [h.type a]
  cases hτ : D.type a with
  | none => exact Meets.ret ⟨rfl, rfl⟩
  | some τ =>
    refine (Path.meets_getData hp).mono ?_
    rintro τ' F' - ⟨rfl, rfl⟩
    refine ⟨rfl, ?_⟩
    rw [h.type a, hτ]
    exact ofData_type τ

/-- What a spot stands below is there. -/
theorem File.isSome_of_place {s t : Spot} {j : ℕ} (h : F.content.place t = some j)
    (hst : s.Under t) :
    (F.content.place s).isSome := by
  by_contra hnone
  rw [Option.not_isSome_iff_eq_none] at hnone
  rw [F.sound.closed hst hnone] at h
  cases h

theorem File.isSome_of_data {s t : Spot} {d : BString} (h : F.content.data t = some d)
    (hst : s.Under t) :
    (F.content.place s).isSome := by
  by_contra hnone
  rw [Option.not_isSome_iff_eq_none] at hnone
  rw [F.sound.data (F.sound.closed hst hnone)] at h
  cases h

/-- The name at a position of an object. -/
theorem meets_getObjectProperty {name : BString} (h : Holds J D F.content)
    (hp : F.content.place (.node a .self) = some p.index)
    (hi : D.key a i = some (.string name)) : Meets (fun _ => getObjectProperty J p i) F fun s F' =>
      F' = F ∧ s = name := by
  obtain ⟨x, hx, -, hposition⟩ := h.entry hi
  obtain ⟨j, hj⟩ := Option.isSome_iff_exists.mp (File.isSome_of_data hposition (Spot.under_refl _))
  obtain ⟨k, hk⟩ := Option.isSome_iff_exists.mp (File.isSome_of_data hposition
    ((Spot.under_up (Spot.up_position a i)).mpr (Or.inr (Spot.under_refl _))))
  refine Meets.bind (Path.meets_walk_of_some (Spot.up_positions a) hp hk) ?_
  rintro q F' - ⟨rfl, hq⟩
  refine Meets.bind (Path.meets_walk_of_some (Spot.up_position a i) (hq ▸ hk) hj) ?_
  rintro r F' - ⟨rfl, hr⟩
  refine Meets.bind (Path.meets_getData (hr ▸ hj)) ?_
  rintro index F' - ⟨rfl, rfl⟩
  rw [hposition, Option.getD_some, ofData_toData]
  refine Meets.bind (Path.meets_parentValue (t := .property name) (p := ⟨x, 0⟩) rfl hx h.json) ?_
  rintro ⟨s, q'⟩ F' - ⟨rfl, rfl, -⟩
  exact Meets.ret ⟨rfl, rfl⟩

/-- One step up: the positions of the node and the mark of the children. -/
theorem meets_parents (h : Holds J D F.content)
    (hp : F.content.place (.node (i :: a) .self) = some p.index) :
    Meets (fun _ => p.parentValue ℕ J.rootIndex) F fun r F' => F' = F ∧ r.1 = i ∧
      Meets (fun _ => r.2.parentValue ℕ J.rootIndex) F fun r F' => F' = F ∧
        F.content.place (.node a .self) = some r.2.index := by
  refine (Path.meets_parentValue (s := .node a .children) rfl hp h.json).mono ?_
  rintro ⟨j, q⟩ F' - ⟨rfl, rfl, hq⟩
  refine ⟨rfl, rfl, (Path.meets_parentValue (Spot.up_children a) hq h.json).mono ?_⟩
  rintro ⟨k, r⟩ F' - ⟨rfl, -, hr⟩
  exact ⟨rfl, hr⟩

theorem meets_parent (h : Holds J D F.content)
    (hp : F.content.place (.node (i :: a) .self) = some p.index) :
    Meets (fun _ => parent J p) F fun q F' => F' = F ∧
      F.content.place (.node a .self) = some q.index := by
  refine Meets.bind (meets_parents h hp) ?_
  rintro ⟨j, q⟩ F' - ⟨rfl, -, hup⟩
  refine Meets.bind hup ?_
  rintro ⟨k, r⟩ F' - ⟨rfl, hr⟩
  exact Meets.ret ⟨rfl, hr⟩

theorem meets_parentKey {c : Component} (h : Holds J D F.content)
    (hp : F.content.place (.node (i :: a) .self) = some p.index)
    (hc : D.key a i = some c) :
    Meets (fun _ => parentKey J p) F fun r F' => F' = F ∧ r.1 = c ∧
      F.content.place (.node a .self) = some r.2.index := by
  refine Meets.bind (meets_parents h hp) ?_
  rintro ⟨j, q⟩ F' - ⟨rfl, rfl, hup⟩
  refine Meets.bind hup ?_
  rintro ⟨k, r⟩ F' - ⟨rfl, hr⟩
  refine Meets.bind (Path.meets_getData hr) ?_
  rintro τ F' - ⟨rfl, rfl⟩
  rw [h.type a]
  cases c with
  | integer n =>
    obtain ⟨hτ, rfl⟩ := h.sound.integer hc
    rw [hτ]
    exact Meets.ret ⟨rfl, rfl, hr⟩
  | string name =>
    rw [h.sound.string hc]
    refine Meets.bind (meets_getObjectProperty h hr hc) ?_
    rintro s F' - ⟨rfl, rfl⟩
    exact Meets.ret ⟨rfl, rfl, hr⟩

/-- The root, the origins and their users are at most two steps deep. -/
theorem meets_isUserRoot (h : Holds J D F.content)
    (hp : F.content.place (.node a .self) = some p.index) :
    Meets (fun _ => isUserRoot J p) F fun b F' => F' = F ∧ b = decide (a.length ≤ 2) := by
  unfold isUserRoot
  rcases a with - | ⟨i, a⟩
  · rw [if_pos ((h.isRoot_iff hp).mpr rfl)]
    exact Meets.ret ⟨rfl, rfl⟩
  rw [if_neg fun hroot => by cases (h.isRoot_iff hp).mp hroot]
  refine Meets.bind (meets_parent h hp) ?_
  rintro up F' - ⟨rfl, hup⟩
  rcases a with - | ⟨j, a⟩
  · rw [if_pos ((h.isRoot_iff hup).mpr rfl)]
    exact Meets.ret ⟨rfl, rfl⟩
  rw [if_neg fun hroot => by cases (h.isRoot_iff hup).mp hroot]
  refine Meets.bind (meets_parent h hup) ?_
  rintro up' F' - ⟨rfl, hup'⟩
  rcases a with - | ⟨k, a⟩
  · rw [if_pos ((h.isRoot_iff hup').mpr rfl)]
    obtain ⟨c, hc⟩ := Option.isSome_iff_exists.mp (h.live_of_place hp).2
    refine Meets.bind (meets_parentKey h hp hc) ?_
    rintro r F' - ⟨rfl, -, -⟩
    exact Meets.ret ⟨rfl, rfl⟩
  · rw [if_neg fun hroot => by cases (h.isRoot_iff hup').mp hroot]
    refine Meets.ret ⟨rfl, ?_⟩
    simp

theorem meets_wayFrom (h : Holds J D F.content) : ∀ {a : List ℕ} {p : Path} {n : ℕ},
    F.content.place (.node a .self) = some p.index → a.length < n →
      Meets (fun _ => wayFrom J n p) F fun r F' => F' = F ∧
        r = (D.steps F.content.index a, J.json.index) := by
  intro a
  induction a with
  | nil =>
    intro p n hp hn
    obtain ⟨n, rfl⟩ := Nat.exists_eq_add_of_lt hn
    simp only [List.length_nil, Nat.zero_add, wayFrom]
    rw [if_pos ((h.isRoot_iff hp).mpr rfl)]
    refine Meets.ret ⟨rfl, ?_⟩
    rw [NodeTree.steps, Option.some.inj (hp.symm.trans h.json)]
  | cons i a ih =>
    intro p n hp hn
    obtain ⟨n, rfl⟩ : ∃ k, n = k + 1 := ⟨n - 1, by omega⟩
    simp only [wayFrom]
    rw [if_neg fun hroot => by cases (h.isRoot_iff hp).mp hroot]
    obtain ⟨c, hc⟩ := Option.isSome_iff_exists.mp (h.live_of_place hp).2
    refine Meets.bind (meets_parentKey h hp hc) ?_
    rintro ⟨key, up⟩ F' - ⟨rfl, rfl, hup⟩
    refine Meets.bind (ih hup (by simpa using hn)) ?_
    rintro ⟨steps, root⟩ F' - ⟨rfl, hr⟩
    obtain ⟨rfl, rfl⟩ := Prod.mk.inj hr
    refine Meets.ret ⟨rfl, ?_⟩
    rw [NodeTree.steps, hc, Content.index_of hp]
    rfl

/-- The way of a node is that in the tree. -/
theorem meets_way (h : Holds J D F.content) (hp : F.content.place (.node a .self) = some p.index) :
    Meets (fun _ => way J p) F fun node F' => F' = F ∧ node = D.node F.content.index a := by
  refine Meets.bind (meets_upwards (meets_wayFrom h hp (File.length_lt_depth hp))) ?_
  rintro ⟨steps, root⟩ F' - ⟨rfl, hr⟩
  obtain ⟨rfl, rfl⟩ := Prod.mk.inj hr
  refine Meets.ret ⟨rfl, ?_⟩
  rw [NodeTree.node, Content.index_of h.json]

/-- The id of a node is written from the tree. -/
theorem meets_id (h : Holds J D F.content) (hp : F.content.place (.node a .self) = some p.index) :
    Meets (fun _ => id J L p) F fun key F' => F' = F ∧ key = D.id L F.content.index a := by
  refine Meets.bind (meets_way h hp) ?_
  rintro node F' - ⟨rfl, rfl⟩
  exact Meets.ret ⟨rfl, rfl⟩

end JSON

end BeeFish
