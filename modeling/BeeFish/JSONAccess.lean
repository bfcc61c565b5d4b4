/-
# Reaching JSON nodes

`json[k1]…[kn]` goes from the root of the JSON database to a node and makes
what is not there, and `setType` gives the node a type. On the tree of nodes
this is `NodeTree.access`. Accesses that give no node two types never clear
anything, so the file holds the tree after any run of them, with its tables and
indices exact, and a node stays where it was made (`Extends`). A node is named
by the keys on its way up, and no two nodes have the same way
(`NodeTree.way_injective`).

Key definitions: `NodeTree.child`, `NodeTree.access`, `NodeTree.way`,
`Extends`, `JSON.access`.
-/
import BeeFish.JSONInsert

namespace BeeFish

/-! ### Accesses -/

/-- An access `json[k1]…[kn]`, and the type that is set there, if one is. -/
structure Access where
  names : List BString
  type : Option JSONType

namespace Access

/-- The access sets the type that its node is to have, and goes through objects
only. Its names are in UTF-8, since `toLower` throws for other bytes. -/
structure Fits (x : Access) (types : List BString → JSONType) : Prop where
  utf8 : ∀ n ∈ x.names, Utf8.IsUtf8 n
  type : ∀ {τ}, x.type = some τ → τ = types x.names ∧ τ ≠ .undefined
  object : ∀ {names name}, names ++ [name] <+: x.names → types names = .object

/-- Each node is to have one type, whatever access is made. -/
def Consistent (xs : List Access) : Prop := ∃ types, ∀ x ∈ xs, Fits x types

end Access

namespace JSON

variable (J : JSONDatabase) (L : Locale)

/-- The access from the root of the JSON database. -/
def access (fuel : ℕ) (x : Access) : DatabaseM Path := do
  let path ← childAll J L fuel J.json x.names
  match x.type with
  | none => return path
  | some type =>
    setType J L fuel path type
    return path

def accessAll (fuel : ℕ) : List Access → DatabaseM (List Path)
  | [] => return []
  | x :: xs => do
    let path ← access J L fuel x
    let paths ← accessAll fuel xs
    return path :: paths

end JSON

/-! ### Accesses to the tree -/

namespace NodeTree

/-- The tree with nothing but its root. -/
def empty : NodeTree := ⟨fun _ => none, fun _ _ => none, fun _ => 0⟩

/-- The type of a node; none where it has another one. -/
def give (D : NodeTree) (a : List ℕ) (τ : JSONType) : Option NodeTree :=
  if D.type a = some τ then some D
  else if D.type a = none ∧ τ ≠ .undefined then some (D.setType a τ)
  else none

/-- The position of a property. -/
def position (D : NodeTree) (a : List ℕ) (name : BString) : Option ℕ :=
  (List.range' 1 (D.count a)).find? fun i => D.key a i = some (.string name)

/-- The tree with the property, and the address of the child. -/
def enter (D : NodeTree) (a : List ℕ) (name : BString) : NodeTree × List ℕ :=
  match D.position a name with
  | some i => (D, i :: a)
  | none => (D.addChild a (.string name), (D.count a + 1) :: a)

/-- `operator [] (property)` -/
def child (D : NodeTree) (a : List ℕ) (name : BString) : Option (NodeTree × List ℕ) :=
  (D.give a .object).map (·.enter a name)

def childAll : NodeTree → List ℕ → List BString → Option (NodeTree × List ℕ)
  | D, a, [] => some (D, a)
  | D, a, name :: names => (D.child a name).bind fun r => r.1.childAll r.2 names

def access (D : NodeTree) (x : Access) : Option (NodeTree × List ℕ) :=
  (D.childAll [] x.names).bind fun r =>
    match x.type with
    | none => some r
    | some τ => (r.1.give r.2 τ).map (·, r.2)

def accessAll : NodeTree → List Access → Option NodeTree
  | D, [] => some D
  | D, x :: xs => (D.access x).bind fun r => r.1.accessAll xs

/-- The keys on the way up from a node. -/
def way (D : NodeTree) : List ℕ → List Component
  | [] => []
  | i :: a => (D.key a i).getD (.string []) :: D.way a

variable {D D' : NodeTree} {a b : List ℕ} {name : BString} {τ : JSONType} {i : ℕ}

/-! ### What an access finds -/

theorem give_cases (h : D.give a τ = some D') : (D.type a = some τ ∧ D' = D) ∨
    (D.type a = none ∧ τ ≠ .undefined ∧ D' = D.setType a τ) := by
  unfold give at h
  split_ifs at h with hsome hnone
  · exact Or.inl ⟨hsome, (Option.some.inj h).symm⟩
  · exact Or.inr ⟨hnone.1, hnone.2, (Option.some.inj h).symm⟩

theorem give_type (h : D.give a τ = some D') : D'.type a = some τ := by
  rcases give_cases h with ⟨hsome, rfl⟩ | ⟨-, -, rfl⟩
  · exact hsome
  · exact setType_type_self

theorem key_of_position (h : D.position a name = some i) : D.key a i = some (.string name) := by
  simpa using List.find?_some h

theorem Sound.position_none (h : D.Sound) (hnone : D.position a name = none) (i : ℕ) :
    D.key a i ≠ some (.string name) := by
  intro hi
  have hle := h.le hi
  have hmem : i ∈ List.range' 1 (D.count a) := List.mem_range'_1.mpr ⟨hle.1, by omega⟩
  simpa [hi] using List.find?_eq_none.mp hnone i hmem

/-- The child of a property is there, and at most this node is new. -/
theorem Sound.enter (h : D.Sound) (ha : D.Live a) (he : D.enter a name = (D', b)) :
    ∃ i, b = i :: a ∧ D'.key a i = some (.string name) ∧ ∀ c, D'.Live c → D.Live c ∨ c = b := by
  unfold NodeTree.enter at he
  cases hi : D.position a name with
  | some i =>
    rw [hi] at he
    obtain ⟨rfl, rfl⟩ := Prod.mk.inj he
    exact ⟨i, rfl, key_of_position hi, fun c hc => Or.inl hc⟩
  | none =>
    rw [hi] at he
    obtain ⟨rfl, rfl⟩ := Prod.mk.inj he
    exact ⟨_, rfl, addChild_key_self, fun c hc => (live_addChild h ha c).mp hc⟩

theorem live_of_give (h : D.give a τ = some D') {c : List ℕ} (hc : D'.Live c) : D.Live c := by
  rcases give_cases h with ⟨-, rfl⟩ | ⟨-, -, rfl⟩
  · exact hc
  · exact (live_setType c).mp hc

theorem live_empty : ∀ a, empty.Live a ↔ a = []
  | [] => by simp [Live]
  | _ :: _ => by simp [Live, empty]

theorem sound_empty : empty.Sound where
  inj h := by cases h
  le h := by cases h
  string h := by cases h
  integer h := by cases h
  live h := by cases h
  undefined _ h := by cases h

/-! ### Ways -/

theorem steps_map_fst (place : List ℕ → ℕ) : ∀ a, (D.steps place a).map Prod.fst = D.way a
  | [] => rfl
  | _ :: a => congrArg _ (steps_map_fst place a)

theorem length_way : ∀ a, (D.way a).length = a.length
  | [] => rfl
  | _ :: a => congrArg (· + 1) (length_way a)

theorem way_isSuffix : ∀ {a b : List ℕ}, a <:+ b → D.way a <:+ D.way b
  | a, [], h => by rw [List.suffix_nil.mp h]
  | a, i :: b, h => by
    rcases List.suffix_cons_iff.mp h with rfl | h
    · exact List.suffix_refl _
    · exact (way_isSuffix h).trans (List.suffix_cons _ _)

/-- What the way of a node ends with is the way of an ancestor. -/
theorem exists_of_way_isSuffix {w : List Component} : ∀ {b : List ℕ}, w <:+ D.way b → ∃ a, a <:+ b ∧
    D.way a = w
  | [], h => ⟨[], List.suffix_refl _, (List.suffix_nil.mp h).symm⟩
  | i :: b, h => by
    rcases List.suffix_cons_iff.mp h with rfl | h
    · exact ⟨i :: b, List.suffix_refl _, rfl⟩
    · obtain ⟨a, hab, ha⟩ := exists_of_way_isSuffix h
      exact ⟨a, hab.trans (List.suffix_cons i b), ha⟩

/-- A child is the only one of its node with its key. -/
theorem Sound.key_injective (h : D.Sound) {j : ℕ} {c : Component} (hi : D.key a i = some c)
    (hj : D.key a j = some c) : i = j := by
  cases c with
  | string name => exact h.inj hi hj
  | integer n => rw [← (h.integer hi).2, (h.integer hj).2]

/-- No two nodes have the same way. -/
theorem Sound.way_injective (h : D.Sound) : ∀ {a b : List ℕ}, D.Live a → D.Live b →
    D.way a = D.way b → a = b
  | [], [], _, _, _ => rfl
  | i :: a, j :: b, ha, hb, he => by
    obtain ⟨hkey, hway⟩ := List.cons.inj he
    obtain rfl := h.way_injective ha.1 hb.1 hway
    obtain ⟨c, hc⟩ := Option.isSome_iff_exists.mp ha.2
    obtain ⟨d, hd⟩ := Option.isSome_iff_exists.mp hb.2
    rw [hc, hd, Option.getD_some, Option.getD_some] at hkey
    rw [h.key_injective hc (hkey ▸ hd)]

/-- A property that a way goes through is a child of its node. -/
theorem Sound.exists_key (h : D.Sound) (ha : D.Live a) (hb : D.Live b)
    (hway : .string name :: D.way a <:+ D.way b) :
    ∃ i, i :: a <:+ b ∧ D.key a i = some (.string name) := by
  obtain ⟨c, hcb, hc⟩ := exists_of_way_isSuffix hway
  have hlive : D.Live c := hb.of_suffix hcb
  cases c with
  | nil => cases hc
  | cons i c =>
    obtain ⟨hkey, hcway⟩ := List.cons.inj hc
    obtain rfl := h.way_injective hlive.1 ha hcway
    obtain ⟨d, hd⟩ := Option.isSome_iff_exists.mp hlive.2
    rw [hd, Option.getD_some] at hkey
    exact ⟨i, hcb, hkey ▸ hd⟩

theorem names_isPrefix_iff {ns ms : List BString} :
    ns.reverse.map Component.string <:+ ms.reverse.map Component.string ↔ ns <+: ms := by
  rw [List.map_reverse, List.map_reverse, List.reverse_suffix,
    List.prefix_map_iff_of_injective fun _ _ => Component.string.inj]

/-! ### Consistent accesses -/

variable {names : List BString} {types : List BString → JSONType}

/-- The nodes have these types, as far as they have one. -/
structure Typed (D : NodeTree) (types : List BString → JSONType) : Prop where
  sound : D.Sound
  type : ∀ {a names}, D.Live a → D.way a = names.reverse.map .string → D.type a = none ∨
    D.type a = some (types names)

theorem names_injective {ns ms : List BString}
    (h : ns.reverse.map Component.string = ms.reverse.map Component.string) : ns = ms :=
  List.reverse_injective (List.map_injective_iff.mpr (fun _ _ => Component.string.inj) h)

theorem way_setType : ∀ b, (D.setType a τ).way b = D.way b
  | [] => rfl
  | _ :: b => congrArg _ (way_setType b)

theorem way_addChild (h : D.Sound) {c : Component} : ∀ {b : List ℕ}, D.Live b →
    (D.addChild a c).way b = D.way b
  | [], _ => rfl
  | i :: b, hb => by
    obtain ⟨d, hd⟩ := Option.isSome_iff_exists.mp hb.2
    rw [way, way, way_addChild h hb.1, addChild_key_of_some h hd, hd]

/-- A type that is as it should be can be given. -/
theorem Typed.give (h : D.Typed types) (ha : D.Live a) (hway : D.way a = names.reverse.map .string)
    (hτ : types names ≠ .undefined) :
    ∃ D', D.give a (types names) = some D' ∧ D'.Typed types ∧ D'.Live a ∧
      D'.way a = names.reverse.map .string := by
  unfold NodeTree.give
  rcases h.type ha hway with hnone | hsome
  · rw [if_neg (by simp [hnone]), if_pos ⟨hnone, hτ⟩]
    refine ⟨_, rfl, ⟨h.sound.setType ha hτ (h.sound.key_of_type hnone), fun {b ms} hb hbway => ?_⟩,
      (live_setType a).mpr ha, (way_setType a).trans hway⟩
    rw [way_setType] at hbway
    by_cases hba : b = a
    · subst hba
      rw [setType_type_self, names_injective (hbway.symm.trans hway)]
      exact Or.inr rfl
    · rw [setType_type_of_ne hba]
      exact h.type ((live_setType b).mp hb) hbway
  · rw [if_pos hsome]
    exact ⟨D, rfl, h, ha, hway⟩

theorem Typed.enter (h : D.Typed types) (ha : D.Live a) (hway : D.way a = names.reverse.map .string)
    (hτ : D.type a = some .object)
    (name : BString) : (D.enter a name).1.Typed types ∧ (D.enter a name).1.Live (D.enter a name).2 ∧
      (D.enter a name).1.way (D.enter a name).2 = (names ++ [name]).reverse.map .string := by
  unfold NodeTree.enter
  cases hi : D.position a name with
  | some i =>
    have hkey := key_of_position hi
    refine ⟨h, ⟨ha, by rw [hkey]; rfl⟩, ?_⟩
    rw [way, hkey, hway]
    simp
  | none =>
    have hsound : (D.addChild a (.string name)).Sound := by
      refine h.sound.addChild ha (fun name' he => ?_) fun i he => by cases he
      cases he
      exact ⟨hτ, h.sound.position_none hi⟩
    have hlive := live_addChild h.sound ha (c := .string name)
    refine ⟨⟨hsound, fun {b ms} hb hbway => ?_⟩, (hlive _).mpr (Or.inr rfl), ?_⟩
    · rcases (hlive b).mp hb with hb | rfl
      · rw [way_addChild h.sound hb] at hbway
        exact h.type hb hbway
      · left
        by_contra hsome
        have hold : D.Live ((D.count a + 1) :: a) :=
          h.sound.live (Option.isSome_iff_ne_none.mpr hsome)
        have hkey := hold.2
        rw [h.sound.key_count] at hkey
        cases hkey
    · rw [way, addChild_key_self, way_addChild h.sound ha, hway]
      simp

theorem Typed.childAll : ∀ (ns names : List BString) {D : NodeTree} {a : List ℕ},
    D.Typed types → D.Live a →
    D.way a = names.reverse.map .string → (∀ ms m, names ++ ms ++ [m] <+: names ++ ns →
      types (names ++ ms) = .object) →
      ∃ r, D.childAll a ns = some r ∧ r.1.Typed types ∧ r.1.Live r.2 ∧
        r.1.way r.2 = (names ++ ns).reverse.map .string
  | [], names, D, a, h, ha, hway, _ => ⟨_, rfl, h, ha, by rw [List.append_nil]; exact hway⟩
  | n :: ns, names, D, a, h, ha, hway, hobject => by
    have hτ : types names = .object := by
      have hobj := hobject [] n (by simp)
      rwa [List.append_nil] at hobj
    obtain ⟨D₁, hgive, h₁, ha₁, hway₁⟩ := h.give ha hway (by rw [hτ]; simp)
    rw [hτ] at hgive
    obtain ⟨h₂, ha₂, hway₂⟩ := h₁.enter ha₁ hway₁ (give_type hgive) n
    obtain ⟨r, hr, htyped, hlive, hrway⟩ :=
      Typed.childAll ns (names ++ [n]) h₂ ha₂ hway₂ (fun ms m hpre => by
      have hobj := hobject (n :: ms) m (by simpa using hpre)
      simpa using hobj)
    refine ⟨r, ?_, htyped, hlive, by simpa using hrway⟩
    rw [NodeTree.childAll, child, hgive]
    exact hr

theorem Typed.access {x : Access} (h : D.Typed types) (hx : x.Fits types) :
    ∃ r, D.access x = some r ∧ r.1.Typed types := by
  obtain ⟨r, hr, htyped, hlive, hway⟩ :=
    Typed.childAll x.names [] (a := []) h trivial rfl fun _ _ => hx.object
  unfold NodeTree.access
  rw [hr, Option.bind_some]
  cases hτ : x.type with
  | none => exact ⟨r, rfl, htyped⟩
  | some τ =>
    obtain ⟨rfl, hne⟩ := hx.type hτ
    obtain ⟨D', hgive, htyped', -⟩ := htyped.give hlive hway hne
    exact ⟨(D', r.2), congrArg (Option.map (·, r.2)) hgive, htyped'⟩

/-- Consistent accesses never give a node another type. -/
theorem isSome_accessAll {xs : List Access} (h : Access.Consistent xs) :
    (empty.accessAll xs).isSome := by
  obtain ⟨types, htypes⟩ := h
  have hall : ∀ {xs : List Access} {D : NodeTree}, D.Typed types → (∀ x ∈ xs, x.Fits types) →
    (D.accessAll xs).isSome := by
    intro xs
    induction xs with
    | nil => exact fun _ _ => rfl
    | cons x xs ih =>
      intro D h hxs
      obtain ⟨r, hr, htyped⟩ := h.access (hxs x List.mem_cons_self)
      rw [NodeTree.accessAll, hr, Option.bind_some]
      exact ih htyped fun y hy => hxs y (List.mem_cons_of_mem x hy)
  exact hall ⟨sound_empty, fun _ _ => Or.inl rfl⟩ htypes

end NodeTree

/-! ### From one tree to a later one -/

/-- The file holds the tree `D'`, which has the nodes of `D` with their keys,
and each in its place. -/
structure Extends (J : JSONDatabase) (L : Locale) (D : NodeTree) (C : Content) (D' : NodeTree)
    (C' : Content) : Prop where
  stands : Stands J L D' C'
  key : ∀ {a i c}, D.key a i = some c → D'.key a i = some c
  place : ∀ b, D.Live b → C'.place (.node b .self) = C.place (.node b .self)

theorem Stands.holds {J : JSONDatabase} {L : Locale} {D : NodeTree} {C : Content}
    (h : Stands J L D C) : Holds J D C := by
  obtain ⟨nodes, hnodes, -⟩ := h
  exact hnodes.toHolds

namespace Extends

variable {J : JSONDatabase} {L : Locale} {D D' D'' : NodeTree} {C C' C'' : Content} {b : List ℕ}

theorem refl (h : Stands J L D C) : Extends J L D C D C := ⟨h, id, fun _ _ => rfl⟩

theorem live (h : Extends J L D C D' C') : ∀ {b : List ℕ}, D.Live b → D'.Live b
  | [], _ => trivial
  | i :: b, hb => by
    obtain ⟨c, hc⟩ := Option.isSome_iff_exists.mp hb.2
    exact ⟨h.live hb.1, by rw [h.key hc]; rfl⟩

theorem way (h : Extends J L D C D' C') : ∀ {b : List ℕ}, D.Live b → D'.way b = D.way b
  | [], _ => rfl
  | i :: b, hb => by
    obtain ⟨c, hc⟩ := Option.isSome_iff_exists.mp hb.2
    rw [NodeTree.way, NodeTree.way, h.way hb.1, h.key hc, hc]

theorem trans (h : Extends J L D C D' C') (h' : Extends J L D' C' D'' C'') :
    Extends J L D C D'' C'' where
  stands := h'.stands
  key hc := h'.key (h.key hc)
  place b hb := (h'.place b (h.live hb)).trans (h.place b hb)

end Extends

/-- The properties lead from the node at `a` to the one at `b`, which `q` is
on; what is new in the tree is on this way. -/
structure Reaches (J : JSONDatabase) (L : Locale) (D : NodeTree) (C : Content) (a : List ℕ)
    (names : List BString) (D' : NodeTree)
    (C' : Content) (b : List ℕ) (q : Path) : Prop extends Extends J L D C D' C' where
  node : C'.place (.node b .self) = some q.index
  names : D'.way b = names.reverse.map .string ++ D.way a
  made : ∀ c, D'.Live c → D.Live c ∨ c <:+ b

/-- Each of the accesses leads to the node that the path is on, and what is new
in the tree is on the way of one of them. -/
structure Ran (J : JSONDatabase) (L : Locale) (D : NodeTree) (C : Content) (xs : List Access)
    (D' : NodeTree) (C' : Content)
    (ps : List Path) : Prop extends Extends J L D C D' C' where
  nodes : List.Forall₂ (fun x p => ∃ b, C'.place (.node b .self) = some (Path.index p) ∧
    D'.way b = (Access.names x).reverse.map .string) xs ps
  made : ∀ c, D'.Live c → D.Live c ∨ ∃ x ∈ xs, D'.way c <:+ x.names.reverse.map .string

section

variable {J : JSONDatabase} {L : Locale} {D D' D'' : NodeTree} {C C' C'' : Content} {a b c : List ℕ}
    {p q r : Path}
  {name : BString} {names : List BString} {x : Access} {xs : List Access} {ps : List Path}

theorem Reaches.trans (h : Reaches J L D C a [name] D' C' b q)
    (h' : Reaches J L D' C' b names D'' C'' c r) :
    Reaches J L D C a (name :: names) D'' C'' c r where
  toExtends := h.toExtends.trans h'.toExtends
  node := h'.node
  names := by simp [h'.names, h.names]
  made d hd := by
    have hb : b <:+ c := by
      have hlive : D''.Live c := h'.stands.holds.live_of_place h'.node
      have hsuffix : D'.way b <:+ D''.way c := ⟨_, h'.names.symm⟩
      rw [← h'.way (h.stands.holds.live_of_place h.node)] at hsuffix
      obtain ⟨e, hec, he⟩ := NodeTree.exists_of_way_isSuffix hsuffix
      rwa [← h'.stands.holds.sound.way_injective (hlive.of_suffix hec)
        (h'.live (h.stands.holds.live_of_place h.node)) he]
    rcases h'.made d hd with hd | hd
    · exact (h.made d hd).imp_right fun hdb => hdb.trans hb
    · exact Or.inr hd

theorem Ran.cons (h : Ran J L D' C' xs D'' C'' ps) (h' : Reaches J L D C [] x.names D' C' b p) :
    Ran J L D C (x :: xs) D'' C'' (p :: ps) where
  toExtends := h'.toExtends.trans h.toExtends
  nodes := by
    have hb : D'.Live b := h'.stands.holds.live_of_place h'.node
    refine .cons ⟨b, (h.place b hb).trans h'.node, ?_⟩ h.nodes
    rw [h.way hb, h'.names, NodeTree.way, List.append_nil]
  made c hc := by
    rcases h.made c hc with hc' | ⟨y, hy, hway⟩
    · rcases h'.made c hc' with hold | hcb
      · exact Or.inl hold
      · refine Or.inr ⟨x, List.mem_cons_self, ?_⟩
        rw [h.way hc']
        have hsuffix := NodeTree.way_isSuffix (D := D') hcb
        rwa [h'.names, NodeTree.way, List.append_nil] at hsuffix
    · exact Or.inr ⟨y, List.mem_cons_of_mem x hy, hway⟩

theorem Ran.exists_node (h : Ran J L D C xs D' C' ps) (hx : x ∈ xs) :
    ∃ p b, C'.place (.node b .self) = some (Path.index p) ∧
      D'.way b = x.names.reverse.map .string := by
  obtain ⟨i, hi, rfl⟩ := List.getElem_of_mem hx
  have hlength := h.nodes.length_eq
  obtain ⟨b, hb⟩ := h.nodes.get hi (hlength ▸ hi)
  exact ⟨_, b, hb⟩

/-- On the way from the root of an empty tree, a property is at a node exactly
if one of the accesses went through it. -/
theorem Ran.exists_key_iff (h : Ran J L .empty C xs D' C' ps) (ha : D'.Live a)
    (hway : D'.way a = names.reverse.map .string) :
    (∃ i, D'.key a i = some (.string name)) ↔ ∃ y ∈ xs, names ++ [name] <+: y.names := by
  have hsuffix : ∀ y : Access, .string name :: D'.way a <:+ y.names.reverse.map .string ↔
    names ++ [name] <+: y.names := by
    intro y
    have he : Component.string name :: D'.way a = (names ++ [name]).reverse.map .string := by
      simp [hway]
    rw [he, NodeTree.names_isPrefix_iff]
  constructor
  · rintro ⟨i, hi⟩
    have hlive := h.stands.holds.sound.live_of_key hi
    have hchild : D'.way (i :: a) = .string name :: D'.way a := by rw [NodeTree.way, hi]; rfl
    rcases h.made _ hlive with hold | ⟨y, hy, hyway⟩
    · cases (NodeTree.live_empty _).mp hold
    · exact ⟨y, hy, (hsuffix y).mp (hchild ▸ hyway)⟩
  · rintro ⟨y, hy, hpre⟩
    obtain ⟨p, b, hplace, hb⟩ := h.exists_node hy
    have hyway := (hsuffix y).mpr hpre
    rw [← hb] at hyway
    obtain ⟨i, -, hi⟩ :=
      h.stands.holds.sound.exists_key ha (h.stands.holds.live_of_place hplace) hyway
    exact ⟨i, hi⟩

end

namespace JSON

variable {J : JSONDatabase} {L : Locale} {D D' : NodeTree} {F : File} {a b : List ℕ} {i : ℕ}
    {p : Path} {name : BString}
  {names : List BString} {τ : JSONType}

/-! ### One step -/

theorem meets_setType (h : Stands J L D F.content)
    (hp : F.content.place (.node a .self) = some p.index)
    (hg : D.give a τ = some D') : Meets (fun fuel => setType J L fuel p τ) F fun _ F' =>
      Extends J L D F.content D' F'.content := by
  obtain ⟨nodes, hnodes, hall⟩ := h
  rcases NodeTree.give_cases hg with ⟨hsome, rfl⟩ | ⟨hnone, hτ, rfl⟩
  · refine (meets_setType_same hnodes.toHolds hp hsome).mono ?_
    rintro _ F' - rfl
    exact .refl ⟨nodes, hnodes, hall⟩
  · refine (meets_setType_new hnodes hp hnone hτ).mono ?_
    rintro _ F' - ⟨hnodes', hplace⟩
    exact ⟨⟨nodes, hnodes', fun b hb => hall b ((NodeTree.live_setType b).mp hb)⟩, fun hc => hc,
      fun b _ => hplace b⟩

/-- The property of an object is found at its position, or at a new one. -/
theorem meets_enter (h : Stands J L D F.content)
    (hp : F.content.place (.node a .self) = some p.index)
    (hτ : D.type a = some .object) :
    Meets (fun _ => getObjectPropertyPosition J L p name) F fun i F' =>
      (D.enter a name).2 = i :: a ∧ Extends J L D F.content (D.enter a name).1 F'.content := by
  obtain ⟨nodes, hnodes, hall⟩ := h
  unfold NodeTree.enter
  cases hi : D.position a name with
  | some i =>
    refine (meets_getObjectPropertyPosition_of_some hnodes.toHolds hp
      (NodeTree.key_of_position hi)).mono ?_
    rintro j F' - ⟨rfl, rfl⟩
    exact ⟨rfl, .refl ⟨nodes, hnodes, hall⟩⟩
  | none =>
    refine (meets_getObjectPropertyPosition hnodes hp hτ (hnodes.sound.position_none hi)).mono ?_
    rintro j F' - ⟨rfl, hnodes', hplace⟩
    refine ⟨rfl, ⟨_, hnodes', fun b hb => ?_⟩, NodeTree.addChild_key_of_some hnodes.sound, hplace⟩
    rcases (NodeTree.live_addChild hnodes.sound (hnodes.live_of_place hp) b).mp hb with hb | rfl
    · exact List.mem_append_left _ (hall b hb)
    · exact List.mem_append_right _ (List.mem_singleton_self _)

/-- A property leads to the child that has it as its key. -/
theorem meets_child (h : Stands J L D F.content)
    (hp : F.content.place (.node a .self) = some p.index)
    (hg : D.child a name = some (D', b)) : Meets (fun fuel => child J L fuel p name) F fun q F' =>
      Reaches J L D F.content a [name] D' F'.content b q := by
  obtain ⟨D₁, hgive, henter⟩ := Option.map_eq_some_iff.mp hg
  refine Meets.step ?_ fun fuel => child.eq_2 J L p name fuel
  refine Meets.bind (meets_setType h hp hgive) ?_
  rintro _ F₁ - h₁
  have ha : D.Live a := h.holds.live_of_place hp
  have hp₁ : F₁.content.place (.node a .self) = some p.index := (h₁.place a ha).trans hp
  refine Meets.bind (meets_enter h₁.stands hp₁ (NodeTree.give_type hgive)) ?_
  rintro i F₂ - ⟨hb, h₂⟩
  rw [henter] at hb h₂
  obtain rfl : b = i :: a := hb
  obtain ⟨_, he, hkey, hnew⟩ := h₁.stands.holds.sound.enter (h₁.live ha) henter
  obtain ⟨rfl, -⟩ := List.cons.inj he
  have h₁₂ : Extends J L D F.content D' F₂.content := h₁.trans h₂
  have hp₂ : F₂.content.place (.node a .self) = some p.index := (h₁₂.place a ha).trans hp
  have hlive : D'.Live (i :: a) := h₂.stands.holds.sound.live_of_key hkey
  obtain ⟨j, hj⟩ := h₂.stands.holds.exists_place hlive
  obtain ⟨k, hk⟩ := Option.isSome_iff_exists.mp (File.isSome_of_place hj
    ((Spot.under_up (t := .node (i :: a) .self) (u := .node a .children) rfl).mpr
      (Or.inr (Spot.under_refl _))))
  refine Meets.bind (Path.meets_walk_of_some (Spot.up_children a) hp₂ hk) ?_
  rintro c F' - ⟨rfl, rfl⟩
  refine (Path.meets_walk_of_some (t := .node (i :: a) .self) (s := .node a .children)
    rfl hk hj).mono ?_
  rintro q F' - ⟨rfl, rfl⟩
  refine ⟨h₁₂, hj, ?_, fun c hc => ?_⟩
  · rw [NodeTree.way, hkey, h₁₂.way ha]
    rfl
  · rcases hnew c hc with hc | rfl
    · exact Or.inl (NodeTree.live_of_give hgive hc)
    · exact Or.inr (List.suffix_refl _)

theorem meets_childAll : ∀ {names : List BString} {D : NodeTree} {F : File} {a : List ℕ} {p : Path},
    Stands J L D F.content →
    F.content.place (.node a .self) = some p.index → D.childAll a names = some (D', b) →
      Meets (fun fuel => childAll J L fuel p names) F fun q F' =>
        Reaches J L D F.content a names D' F'.content b q := by
  intro names
  induction names with
  | nil =>
    intro D F a p h hp hg
    obtain ⟨rfl, rfl⟩ := Prod.mk.inj (Option.some.inj hg)
    exact Meets.ret ⟨.refl h, hp, rfl, fun c hc => Or.inl hc⟩
  | cons name names ih =>
    intro D F a p h hp hg
    obtain ⟨⟨D₁, a₁⟩, hchild, hrest⟩ := Option.bind_eq_some_iff.mp hg
    refine Meets.bind (meets_child h hp hchild) ?_
    rintro q F₁ - h₁
    refine (ih h₁.stands h₁.node hrest).mono ?_
    rintro r F₂ - h₂
    exact h₁.trans h₂

theorem meets_access {x : Access} (h : Stands J L D F.content) (hg : D.access x = some (D', b)) :
    Meets (fun fuel => access J L fuel x) F fun q F' =>
      Reaches J L D F.content [] x.names D' F'.content b q := by
  obtain ⟨⟨D₁, a₁⟩, hnames, hrest⟩ := Option.bind_eq_some_iff.mp hg
  refine Meets.bind (meets_childAll h h.holds.json hnames) ?_
  rintro q F₁ - h₁
  cases hτ : x.type with
  | none =>
    rw [hτ] at hrest
    obtain ⟨rfl, rfl⟩ := Prod.mk.inj (Option.some.inj hrest)
    exact Meets.ret h₁
  | some τ =>
    rw [hτ] at hrest
    obtain ⟨D₂, hgive, he⟩ := Option.map_eq_some_iff.mp hrest
    obtain ⟨rfl, rfl⟩ := Prod.mk.inj he
    refine Meets.bind (meets_setType h₁.stands h₁.node hgive) ?_
    rintro _ F₂ - h₂
    have ha : D₁.Live a₁ := h₁.stands.holds.live_of_place h₁.node
    refine Meets.ret ⟨h₁.toExtends.trans h₂, (h₂.place a₁ ha).trans h₁.node, ?_, fun c hc => ?_⟩
    · rw [h₂.way ha, h₁.names]
    · exact h₁.made c (NodeTree.live_of_give hgive hc)

/-! ### A run -/

/-- A run leads each access to a node of the tree that the accesses make. -/
theorem meets_accessAll : ∀ {xs : List Access} {D : NodeTree} {F : File}, Stands J L D F.content →
    D.accessAll xs = some D' → Meets (fun fuel => accessAll J L fuel xs) F fun ps F' =>
      Ran J L D F.content xs D' F'.content ps := by
  intro xs
  induction xs with
  | nil =>
    intro D F h hg
    obtain rfl := Option.some.inj hg
    exact Meets.ret ⟨.refl h, .nil, fun c hc => Or.inl hc⟩
  | cons x xs ih =>
    intro D F h hg
    obtain ⟨⟨D₁, a⟩, haccess, hrest⟩ := Option.bind_eq_some_iff.mp hg
    refine Meets.bind (meets_access h haccess) ?_
    rintro p F₁ - h₁
    refine Meets.bind (ih h₁.stands hrest) ?_
    rintro ps F₂ - h₂
    exact Meets.ret (h₂.cons h₁)

end JSON

end BeeFish
