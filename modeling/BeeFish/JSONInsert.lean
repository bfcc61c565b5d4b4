/-
# Making JSON nodes

A new property of an object gets the next position of the object. Its name
gets an index in the properties of the database, unless another object has it
already, and the tables of the object get an entry both ways
(`Content.Inserted`). So the file holds the tree with one child more
(`Holds.addChild`); its indices stay exact, since no id and no way of a node
that was there changes (`NodeTree.SameWay`).

Key definitions: `NodeTree.addChild`, `NodeTree.setType`, `NodeTree.SameWay`,
`Content.Inserted`, `Indexed`, `Stands`.
-/
import BeeFish.JSONIndex

namespace BeeFish

namespace NodeTree

variable (D : NodeTree)

/-! ### One node more -/

/-- A child with the key `c` at the next position. -/
def addChild (a : List ℕ) (c : Component) : NodeTree where
  type := D.type
  key b i := if b = a ∧ i = D.count a + 1 then some c else D.key b i
  count b := if b = a then D.count a + 1 else D.count b

/-- The type of a node. -/
def setType (a : List ℕ) (τ : JSONType) : NodeTree :=
  { D with type := Function.update D.type a (some τ) }

variable {D} {a b : List ℕ} {c : Component} {i : ℕ} {τ : JSONType}

@[simp] theorem addChild_count_self : (D.addChild a c).count a = D.count a + 1 := if_pos rfl

@[simp] theorem addChild_count_of_ne (hb : b ≠ a) : (D.addChild a c).count b = D.count b :=
  if_neg hb

theorem addChild_key_self : (D.addChild a c).key a (D.count a + 1) = some c := if_pos ⟨rfl, rfl⟩

theorem addChild_key_of_some (h : D.Sound) {d : Component} (hd : D.key b i = some d) :
    (D.addChild a c).key b i = some d := by
  refine (if_neg ?_).trans hd
  rintro ⟨rfl, rfl⟩
  rw [h.key_count] at hd
  cases hd

theorem addChild_key {d : Component} (hd : (D.addChild a c).key b i = some d) :
    (b = a ∧ i = D.count a + 1 ∧ d = c) ∨ D.key b i = some d := by
  unfold addChild at hd
  dsimp only at hd
  split_ifs at hd with he
  · exact Or.inl ⟨he.1, he.2, (Option.some.inj hd).symm⟩
  · exact Or.inr hd

theorem live_addChild (h : D.Sound) (ha : D.Live a) : ∀ b, (D.addChild a c).Live b ↔ D.Live b ∨
    b = (D.count a + 1) :: a
  | [] => by simp [Live]
  | i :: b => by
    have hlen : a ≠ (D.count a + 1) :: a := fun he => by simpa using congrArg List.length he
    rw [Live, live_addChild h ha b, Live]
    unfold addChild
    dsimp only
    constructor
    · rintro ⟨hb, hi⟩
      split_ifs at hi with he
      · obtain ⟨rfl, rfl⟩ := he
        exact Or.inr rfl
      · obtain ⟨d, hd⟩ := Option.isSome_iff_exists.mp hi
        exact Or.inl ⟨(h.live_of_key hd).1, hi⟩
    · rintro (⟨hb, hi⟩ | he)
      · refine ⟨Or.inl hb, ?_⟩
        split_ifs
        · rfl
        · exact hi
      · obtain ⟨rfl, rfl⟩ := List.cons.inj he
        rw [if_pos ⟨rfl, rfl⟩]
        exact ⟨Or.inl ha, rfl⟩

theorem Sound.addChild (h : D.Sound) (ha : D.Live a)
    (hnew : ∀ name, c = .string name → D.type a = some .object ∧
      ∀ i, D.key a i ≠ some (.string name))
    (hitem : ∀ i, c = .integer i → D.type a = some .array ∧ i = D.count a + 1) :
    (D.addChild a c).Sound where
  inj {b i j p} hi hj := by
    rcases addChild_key hi with ⟨rfl, rfl, rfl⟩ | hold
    · rcases addChild_key hj with ⟨-, rfl, -⟩ | hold'
      · rfl
      · exact absurd hold' ((hnew p rfl).2 j)
    · rcases addChild_key hj with ⟨rfl, rfl, rfl⟩ | hold'
      · exact absurd hold ((hnew p rfl).2 i)
      · exact h.inj hold hold'
  le {b i d} hd := by
    rcases addChild_key hd with ⟨rfl, rfl, rfl⟩ | hd
    · rw [addChild_count_self]
      omega
    · have hle := h.le hd
      by_cases hb : b = a
      · subst hb
        rw [addChild_count_self]
        omega
      · rwa [addChild_count_of_ne hb]
  string {b i p} hp := by
    rcases addChild_key hp with ⟨rfl, rfl, rfl⟩ | hp
    · exact (hnew p rfl).1
    · exact h.string hp
  integer {b i j} hj := by
    rcases addChild_key hj with ⟨rfl, rfl, rfl⟩ | hj
    · exact hitem j rfl
    · exact h.integer hj
  live {b} hb := (live_addChild h ha b).mpr (Or.inl (h.live hb))
  undefined := h.undefined

theorem live_setType : ∀ b, (D.setType a τ).Live b ↔ D.Live b
  | [] => Iff.rfl
  | _ :: b => and_congr (live_setType b) Iff.rfl

/-- A node without a type has no children. -/
theorem Sound.key_of_type (h : D.Sound) (hnone : D.type a = none) (i : ℕ) : D.key a i = none := by
  by_contra hne
  obtain ⟨c, hc⟩ := Option.ne_none_iff_exists'.mp hne
  cases c with
  | integer j => rw [(h.integer hc).1] at hnone; cases hnone
  | string name => rw [h.string hc] at hnone; cases hnone

@[simp] theorem setType_type_self : (D.setType a τ).type a = some τ := Function.update_self ..

@[simp] theorem setType_type_of_ne (hb : b ≠ a) : (D.setType a τ).type b = D.type b :=
  Function.update_of_ne hb ..

theorem Sound.setType (h : D.Sound) (ha : D.Live a) (hτ : τ ≠ .undefined)
    (hkeys : ∀ i, D.key a i = none) :
    (D.setType a τ).Sound where
  inj := h.inj
  le := h.le
  string {b i p} hp := by
    have hb : b ≠ a := by
      rintro rfl
      have hnone := (show D.key b i = some (.string p) from hp).symm.trans (hkeys i)
      cases hnone
    exact (setType_type_of_ne hb).trans (h.string hp)
  integer {b i j} hj := by
    have hb : b ≠ a := by
      rintro rfl
      have hnone := (show D.key b i = some (.integer j) from hj).symm.trans (hkeys i)
      cases hnone
    exact ⟨(setType_type_of_ne hb).trans (h.integer hj).1, (h.integer hj).2⟩
  live {b} hb := by
    apply (live_setType b).mpr
    by_cases he : b = a
    · exact he ▸ ha
    · exact h.live (by rwa [setType_type_of_ne he] at hb)
  undefined b := by
    by_cases he : b = a
    · rw [he, setType_type_self]
      exact fun h => hτ (Option.some.inj h)
    · rw [setType_type_of_ne he]
      exact h.undefined b

/-! ### What an id is written from -/

/-- The way from the node up to the root is the same in both trees. -/
structure SameWay (D D' : NodeTree) (place place' : List ℕ → ℕ) (b : List ℕ) : Prop where
  key : ∀ {c j}, j :: c <:+ b → D'.key c j = D.key c j
  place : ∀ {c}, c <:+ b → place' c = place c

namespace SameWay

variable {D' : NodeTree} {place place' : List ℕ → ℕ}

theorem of_suffix (h : SameWay D D' place place' b) (hab : a <:+ b) : SameWay D D' place place' a :=
  ⟨fun hc => h.key (hc.trans hab), fun hc => h.place (hc.trans hab)⟩

theorem steps : ∀ {b : List ℕ}, SameWay D D' place place' b → D'.steps place' b = D.steps place b
  | [], _ => rfl
  | i :: b, h => by
    have hb : SameWay D D' place place' b := h.of_suffix (List.suffix_cons i b)
    rw [NodeTree.steps, NodeTree.steps, hb.steps, h.key (List.suffix_refl _),
      h.place (List.suffix_refl _)]

theorem id (L : Locale) (h : SameWay D D' place place' b) : D'.id L place' b = D.id L place b := by
  rw [NodeTree.id, NodeTree.id, NodeTree.node, NodeTree.node, h.steps, h.place List.nil_suffix]

theorem chain (L : Locale) : ∀ {b : List ℕ}, SameWay D D' place place' b →
    D'.chain L place' b = D.chain L place b
  | [], _ => rfl
  | [_], _ => rfl
  | i :: j :: b, h => by
    have hb : SameWay D D' place place' (j :: b) := h.of_suffix (List.suffix_cons i _)
    rw [NodeTree.chain, NodeTree.chain, hb.chain, h.id]

theorem names : ∀ {b : List ℕ}, SameWay D D' place place' b → D'.names b = D.names b
  | [], _ => rfl
  | [_], _ => rfl
  | [_, _], _ => rfl
  | i :: j :: k :: b, h => by
    have hb : SameWay D D' place place' (j :: k :: b) := h.of_suffix (List.suffix_cons i _)
    rw [NodeTree.names, NodeTree.names, hb.names, h.key (List.suffix_refl _)]

theorem entries (L : Locale) (h : SameWay D D' place place' b) :
    D'.entries L place' b = D.entries L place b := by
  rw [NodeTree.entries, NodeTree.entries, h.names, h.chain]

end SameWay

end NodeTree

/-! ### A new property in the file -/

namespace Content

/-- The object at `a` gets the property `name`, whose index is `x`, at its
position `i`. -/
structure Inserted (C C' : Content) (a : List ℕ) (name : BString) (i x : ℕ) : Prop where
  same : C.SameBut (fun s => s.Loose ∨ s = .property name ∨ s = .node a (.property x) ∨
    s = .user name (C.index a) ∨
    s = .node a .children ∨ s = .node a (.position i) ∨ s = .node (i :: a) .self) C'
  property : C'.place (.property name) = some x
  old : C.place (.property name) = some x ∨ C.place (.property name) = none
  entry : C'.data (.node a (.property x)) = some (toData i)
  position : C'.data (.node a (.position i)) = some (toData x)
  user : (C'.place (.user name (C.index a))).isSome
  children : C'.data (.node a .children) = some (toData i)
  node : (C'.place (.node (i :: a) .self)).isSome
  type : C'.data (.node (i :: a) .self) = none

namespace Inserted

variable {C C' : Content} {a b : List ℕ} {name : BString} {i x : ℕ}

theorem place_self (h : Inserted C C' a name i x) (hb : b ≠ i :: a) :
    C'.place (.node b .self) = C.place (.node b .self) :=
  h.same.place (by simpa using hb)

theorem data_self (h : Inserted C C' a name i x) (hb : b ≠ i :: a) :
    C'.data (.node b .self) = C.data (.node b .self) :=
  h.same.data (by simpa using hb)

theorem place_property (h : Inserted C C' a name i x) {p : BString} {y : ℕ}
    (hp : C.place (.property p) = some y) :
    C'.place (.property p) = some y := by
  by_cases he : p = name
  · subst he
    rcases h.old with hx | hnone
    · rw [h.property, ← hx, hp]
    · rw [hnone] at hp
      cases hp
  · rw [h.same.place (by simpa using he), hp]

theorem index (h : Inserted C C' a name i x) (hb : b ≠ i :: a) : C'.index b = C.index b := by
  rw [Content.index, Content.index, h.place_self hb]

end Inserted

end Content

open NodeTree in
/-- The file holds the tree with the new child. -/
theorem Holds.addChild {J : JSONDatabase} {D : NodeTree} {C C' : Content} {a : List ℕ}
    {name : BString}
    {x n : ℕ} (hs : C'.Sound n) (h : Holds J D C) (hi : C.Inserted C' a name (D.count a + 1) x)
    (hτ : D.type a = some .object)
    (hnew : ∀ i, D.key a i ≠ some (.string name)) : Holds J (D.addChild a (.string name)) C' := by
  have hlive : D.Live a := h.sound.live (by rw [hτ]; rfl)
  have hdead : ¬ D.Live ((D.count a + 1) :: a) := by
    rintro ⟨-, hsome⟩
    rw [h.sound.key_count] at hsome
    cases hsome
  have hindex : C.place (.node a .self) = some (C.index a) := by
    obtain ⟨j, hj⟩ := Option.isSome_iff_exists.mp ((h.live a).mpr hlive)
    rw [hj, Content.index_of hj]
  have hroot : [] ≠ (D.count a + 1) :: a := (List.cons_ne_nil _ _).symm
  have hplace : ∀ {s}, ¬ (s.Loose ∨ s = .property name ∨ s = .node a (.property x) ∨
    s = .user name (C.index a) ∨
      s = .node a .children ∨ s = .node a (.position (D.count a + 1)) ∨
        s = .node ((D.count a + 1) :: a) .self) →
        C'.place s = C.place s := hi.same.place
  constructor
  case sound =>
    refine h.sound.addChild hlive (fun p hp => ?_) (by simp)
    obtain rfl := Component.string.inj hp
    exact ⟨hτ, hnew⟩
  case json => rw [hi.place_self hroot]; exact h.json
  case properties => rw [hplace (by simp)]; exact h.properties
  case words => rw [hplace (by simp)]; exact h.words
  case objects => rw [hplace (by simp)]; exact h.objects
  case live =>
    intro b
    rw [live_addChild h.sound hlive]
    by_cases hb : b = (D.count a + 1) :: a
    · simp only [hb, hi.node, or_true]
    · rw [hi.place_self hb, h.live]
      simp [hb]
  case type =>
    intro b
    show _ = (D.type b).map toData
    by_cases hb : b = (D.count a + 1) :: a
    · have hnone : D.type b = none := by
        by_contra hne
        exact hdead (hb ▸ h.sound.live (Option.isSome_iff_ne_none.mpr hne))
      rw [hnone, hb]
      exact hi.type
    · rw [hi.data_self hb]
      exact h.type b
  case count =>
    intro b
    by_cases hb : b = a
    · rw [hb, if_neg (by simp), addChild_count_self]
      exact hi.children
    · simp only [addChild_count_of_ne hb, hi.same.data (s := .node b .children) (by simpa using hb)]
      exact h.count b
  case entry =>
    intro b j p hp
    rcases addChild_key hp with ⟨rfl, rfl, he⟩ | hold
    · obtain rfl := Component.string.inj he
      exact ⟨x, hi.property, hi.entry, hi.position⟩
    · obtain ⟨y, hy, hproperty, hposition⟩ := h.entry hold
      refine ⟨y, hi.place_property hy, ?_, ?_⟩
      · rw [hi.same.data, hproperty]
        -- the name is another one
        rintro (hl | he | he | he | he | he | he) <;> try cases he
        · cases hl
        · have hname := hs.inj (hi.place_property hy) hi.property
          cases hname
          exact hnew j hold
      · rw [hi.same.data, hposition]
        rintro (hl | he | he | he | he | he | he) <;> try cases he
        · cases hl
        · rw [h.sound.key_count] at hold
          cases hold
  case only =>
    intro b y hy
    by_cases he : b = a ∧ y = x
    · obtain ⟨rfl, rfl⟩ := he
      exact ⟨_, name, addChild_key_self, hi.property⟩
    · rw [hplace (by simpa using he)] at hy
      obtain ⟨j, p, hp, hpy⟩ := h.only hy
      exact ⟨j, p, addChild_key_of_some h.sound hp, hi.place_property hpy⟩
  case used =>
    intro p hp
    by_cases he : p = name
    · subst he
      exact ⟨a, _, addChild_key_self⟩
    · rw [hplace (by simpa using he)] at hp
      obtain ⟨b, j, hj⟩ := h.used hp
      exact ⟨b, j, addChild_key_of_some h.sound hj⟩
  case user =>
    intro p y
    constructor
    · intro hy
      by_cases he : p = name ∧ y = C.index a
      · obtain ⟨rfl, rfl⟩ := he
        refine ⟨a, _, addChild_key_self, ?_⟩
        rw [hi.place_self (by simp), hindex]
      · rw [hplace (by simpa using he), h.user] at hy
        obtain ⟨b, j, hj, hb⟩ := hy
        refine ⟨b, j, addChild_key_of_some h.sound hj, ?_⟩
        rw [hi.place_self, hb]
        rintro rfl
        exact hdead ((h.live _).mp (by rw [hb]; rfl))
    · rintro ⟨b, j, hj, hb⟩
      rcases addChild_key hj with ⟨rfl, rfl, hc⟩ | hold
      · obtain rfl := Component.string.inj hc
        rw [hi.place_self (by simp), hindex] at hb
        obtain rfl := Option.some.inj hb
        exact hi.user
      · by_cases he : p = name ∧ y = C.index a
        · obtain ⟨rfl, rfl⟩ := he
          exact hi.user
        · rw [hplace (by simpa using he), h.user]
          refine ⟨b, j, hold, ?_⟩
          rwa [hi.place_self] at hb
          rintro rfl
          exact hdead (h.sound.live_of_key hold).1

/-! ### The indices -/

/-- The index of the words has the entries of these nodes. -/
structure Words (L : Locale) (D : NodeTree) (C : Content) (nodes : List (List ℕ)) : Prop where
  nodup : nodes.Nodup
  live : ∀ a ∈ nodes, D.Live a
  tally : ∀ w k, C.tally (.wordId w k) = (nodes.flatMap (D.entries L C.index)).count (w, k)
  place : ∀ w k, (C.place (.wordId w k)).isSome ↔ (w, k) ∈ nodes.flatMap (D.entries L C.index)
  word : ∀ w, (C.place (.word w)).isSome ↔ ∃ k, (w, k) ∈ nodes.flatMap (D.entries L C.index)

/-- The file holds the tree, the bounds index is exact, and the words are
counted for these nodes. -/
structure Indexed (J : JSONDatabase) (L : Locale) (D : NodeTree) (C : Content)
    (nodes : List (List ℕ)) : Prop extends Holds J D C where
  bounds : Bounds L D C
  counts : Words L D C nodes

/-- The file holds the tree, and both indices are exact. -/
def Stands (J : JSONDatabase) (L : Locale) (D : NodeTree) (C : Content) : Prop :=
  ∃ nodes, Indexed J L D C nodes ∧ ∀ a, D.Live a → a ∈ nodes

section

variable {J : JSONDatabase} {L : Locale} {D : NodeTree} {C C₁ C' : Content} {a b : List ℕ}
    {name : BString} {x n : ℕ}
  {nodes : List (List ℕ)}

theorem Holds.not_live (h : Holds J D C) (a : List ℕ) : ¬ D.Live ((D.count a + 1) :: a) := by
  rintro ⟨-, hsome⟩
  rw [h.sound.key_count] at hsome
  cases hsome

/-- The ways of the nodes that were there stay. -/
theorem Content.Inserted.sameWay (h : Holds J D C) (hi : C.Inserted C' a name (D.count a + 1) x)
    (hb : D.Live b) :
    NodeTree.SameWay D (D.addChild a (.string name)) C.index C'.index b where
  key {c j} hc := by
    obtain ⟨d, hd⟩ := Option.isSome_iff_exists.mp (hb.of_suffix hc).2
    rw [hd, NodeTree.addChild_key_of_some h.sound hd]
  place {c} hc := by
    apply hi.index
    rintro rfl
    exact h.not_live a (hb.of_suffix hc)

theorem Bounds.addChild (hb : Bounds L D C) (h : Holds J D C)
    (hi : C.Inserted C' a name (D.count a + 1) x) :
    Bounds L (D.addChild a (.string name)) C' := by
  intro y k
  have hplace : C'.place (.objectId y k) = C.place (.objectId y k) := hi.same.place (by simp)
  rw [hplace, hb]
  have hnew : ∀ {c b : List ℕ}, c <:+ b → (D.type b).isSome → c ≠ (D.count a + 1) :: a := by
    rintro c b hcb hb rfl
    exact h.not_live a ((h.sound.live hb).of_suffix hcb)
  constructor
  · rintro ⟨c, b, hc, hy, hcb, hb, rfl⟩
    refine ⟨c, b, hc, ?_, hcb, hb, ?_⟩
    · rw [hi.place_self (hnew hcb hb), hy]
    · exact ((hi.sameWay h (h.sound.live hb)).id L).symm
  · rintro ⟨c, b, hc, hy, hcb, hb, rfl⟩
    have hb' : (D.type b).isSome := hb
    refine ⟨c, b, hc, ?_, hcb, hb', ?_⟩
    · rwa [hi.place_self (hnew hcb hb')] at hy
    · exact (hi.sameWay h (h.sound.live hb')).id L

theorem Words.addChild (h : Holds J D C) (hw : Words L D C nodes) (ha : D.Live a)
    (hi : C.Inserted C₁ a name (D.count a + 1) x)
    (hc : C₁.Counted C' ((D.addChild a (.string name)).entries L C₁.index ((D.count a + 1) :: a))) :
    Words L (D.addChild a (.string name)) C' (nodes ++ [(D.count a + 1) :: a]) := by
  have hentries : (nodes ++ [(D.count a + 1) :: a]).flatMap
    ((D.addChild a (.string name)).entries L C'.index) =
      nodes.flatMap (D.entries L C.index) ++ (D.addChild a (.string name)).entries L C₁.index
        ((D.count a + 1) :: a) := by
    rw [hc.index, List.flatMap_append, List.flatMap_singleton]
    congr 1
    apply List.flatMap_congr
    intro b hb
    exact (hi.sameWay h (hw.live b hb)).entries L
  have hold : ∀ w k, C₁.place (.wordId w k) = C.place (.wordId w k) ∧ C₁.tally (.wordId w k) =
    C.tally (.wordId w k) := by
    intro w k
    refine ⟨hi.same.place (by simp), ?_⟩
    rw [Content.tally, Content.tally, hi.same.data (by simp)]
  have hword : ∀ w, C₁.place (.word w) = C.place (.word w) := fun w => hi.same.place (by simp)
  constructor
  case nodup =>
    rw [List.nodup_append]
    refine ⟨hw.nodup, List.nodup_singleton _, fun b hb c hc' => ?_⟩
    rintro rfl
    rw [List.mem_singleton] at hc'
    exact h.not_live a (hc' ▸ hw.live _ hb)
  case live =>
    intro b hb
    rw [NodeTree.live_addChild h.sound ha]
    rcases List.mem_append.mp hb with hb | hb
    · exact Or.inl (hw.live b hb)
    · exact Or.inr (List.mem_singleton.mp hb)
  case tally =>
    intro w k
    rw [hentries, List.count_append, hc.tally, (hold w k).2, hw.tally]
  case place =>
    intro w k
    rw [hentries, List.mem_append, hc.place, (hold w k).1, hw.place]
  case word =>
    intro w
    rw [hentries, hc.word, hword, hw.word]
    simp only [List.mem_append, exists_or]

/-- A new property, whose words are counted. -/
theorem Indexed.addChild (hs : C₁.Sound n) (h : Indexed J L D C nodes)
    (hτ : D.type a = some .object)
    (hnew : ∀ i, D.key a i ≠ some (.string name)) (hi : C.Inserted C₁ a name (D.count a + 1) x)
    (hc : C₁.Counted C' ((D.addChild a (.string name)).entries L C₁.index ((D.count a + 1) :: a))) :
    Indexed J L (D.addChild a (.string name)) C' (nodes ++ [(D.count a + 1) :: a]) := by
  have ha : D.Live a := h.sound.live (by rw [hτ]; rfl)
  refine ⟨hc.holds (h.toHolds.addChild hs hi hτ hnew), fun y k => ?_,
    h.counts.addChild h.toHolds ha hi hc⟩
  have hplace : C'.place (.objectId y k) = C₁.place (.objectId y k) := hc.same.place not_false
  rw [hplace, h.bounds.addChild h.toHolds hi, hc.index]
  simp only [hc.node]

end

/-! ### Positions -/

/-- The tally of the children is the number of positions given. -/
theorem Holds.tally_children {J : JSONDatabase} {D : NodeTree} {C : Content} (h : Holds J D C)
    (a : List ℕ) :
    C.tally (.node a .children) = D.count a := by
  rw [Content.tally, h.count]
  split_ifs with h0
  · exact h0.symm
  · exact ofData_toData _

namespace JSON

variable {J : JSONDatabase} {L : Locale} {D : NodeTree} {F : File} {a : List ℕ} {i : ℕ} {p : Path}
    {name : BString}

/-- A property that is there has its position, and nothing changes. -/
theorem meets_getObjectPropertyPosition_of_some (h : Holds J D F.content)
    (hp : F.content.place (.node a .self) = some p.index)
    (hi : D.key a i = some (.string name)) :
    Meets (fun _ => getObjectPropertyPosition J L p name) F fun r F' => F' = F ∧ r = i := by
  obtain ⟨x, hx, hentry, -⟩ := h.entry hi
  obtain ⟨j, hj⟩ := Option.isSome_iff_exists.mp (File.isSome_of_data hentry (Spot.under_refl _))
  obtain ⟨k, hk⟩ := Option.isSome_iff_exists.mp (File.isSome_of_data hentry
    ((Spot.under_up (Spot.up_property a x)).mpr (Or.inr (Spot.under_refl _))))
  refine Meets.bind (Path.meets_walk_of_some (t := .property name) rfl h.properties hx) ?_
  rintro q F' - ⟨rfl, rfl⟩
  refine Meets.bind (Path.meets_walk_of_some (Spot.up_properties a) hp hk) ?_
  rintro r F' - ⟨rfl, rfl⟩
  refine Meets.bind (Path.meets_walk_of_some (Spot.up_property a q.index) hk hj) ?_
  rintro s F' - ⟨rfl, rfl⟩
  refine Meets.bind (Path.meets_hasData hj) ?_
  rintro _ F' - ⟨rfl, rfl⟩
  rw [hentry]
  refine (Path.meets_getData hj).mono ?_
  rintro n F' - ⟨rfl, rfl⟩
  rw [hentry, Option.getD_some, ofData_toData]
  exact ⟨rfl, rfl⟩

/-- A new property gets the next position. -/
theorem meets_getObjectPropertyPosition {nodes : List (List ℕ)} (h : Indexed J L D F.content nodes)
    (hp : F.content.place (.node a .self) = some p.index) (hτ : D.type a = some .object)
    (hnew : ∀ i, D.key a i ≠ some (.string name)) :
    Meets (fun _ => getObjectPropertyPosition J L p name) F fun r F' => r = D.count a + 1 ∧
      Indexed J L (D.addChild a (.string name)) F'.content (nodes ++ [(D.count a + 1) :: a]) ∧
        ∀ b, D.Live b → F'.content.place (.node b .self) = F.content.place (.node b .self) := by
  have hindex : F.content.index a = p.index := Content.index_of hp
  refine Meets.bind (Path.meets_walk (t := .property name) rfl h.properties) ?_
  rintro q F₁ - ⟨h₁, hq⟩
  have hp₁ : F₁.content.place (.node a .self) = some p.index := by rw [h₁]; simpa using hp
  refine Meets.bind (Path.meets_walk (Spot.up_properties a) hp₁) ?_
  rintro r F₂ - ⟨h₂, -⟩
  have hr₂ : F₂.content.place (.node a .properties) = some r.index := by
    rw [h₂, Content.make_place_self]
  refine Meets.bind (Path.meets_walk (Spot.up_property a q.index) hr₂) ?_
  rintro s F₃ - ⟨h₃, -⟩
  -- the object has no property with this index
  have hfresh : F.content.data (.node a (.property q.index)) = none := by
    apply F.sound.data
    by_contra hne
    obtain ⟨i, name', hi, hx⟩ := h.only (Option.isSome_iff_ne_none.mpr hne)
    rcases hq with hq | ⟨-, hge⟩
    · cases F.sound.inj hx hq
      exact hnew i hi
    · have := F.sound.lt hx
      omega
  have hs₃ : F₃.content.place (.node a (.property q.index)) = some s.index := by
    rw [h₃, Content.make_place_self]
  refine Meets.bind (Path.meets_hasData hs₃) ?_
  rintro _ F' - ⟨rfl, rfl⟩
  rw [h₃, h₂, h₁, Content.make_data, Content.make_data, Content.make_data, hfresh]
  simp only [Option.isSome_none, Bool.not_false, if_true]
  refine Meets.bind (Path.meets_walk (t := .user name p.index) (s := .property name) rfl
    (by rw [h₃, h₂, h₁]; simp)) ?_
  rintro u F₄ - ⟨h₄, -⟩
  refine Meets.bind (Path.meets_walk (Spot.up_children a) (by rw [h₄, h₃, h₂, h₁]; simpa using hp))
    ?_
  rintro c F₅ - ⟨h₅, -⟩
  have htally : F₅.content.tally (.node a .children) = D.count a := by
    rw [h₅, h₄, h₃, h₂, h₁]
    exact h.tally_children a
  refine Meets.bind (Path.meets_increment (s := .node a .children) (by rw [h₅]; simp)) ?_
  rintro _ F₆ - ⟨rfl, h₆⟩
  rw [htally] at h₆ ⊢
  refine Meets.bind
    (Path.meets_walk (Spot.up_positions a) (by rw [h₆, h₅, h₄, h₃, h₂, h₁]; simpa using hp)) ?_
  rintro o F₇ - ⟨h₇, -⟩
  refine Meets.bind (Path.meets_walk (Spot.up_position a (D.count a + 1)) (by rw [h₇]; simp)) ?_
  rintro t F₈ - ⟨h₈, -⟩
  refine Meets.bind (Path.meets_setData (s := .node a (.position (D.count a + 1)))
    (by rw [h₈]; simp) q.index) ?_
  rintro _ F₉ - h₉
  refine Meets.bind (Path.meets_setData (s := .node a (.property q.index)) ?_ (D.count a + 1)) ?_
  · rw [h₉, h₈, h₇, h₆, h₅, h₄]
    simpa using hs₃
  rintro _ F₁₀ - h₁₀
  refine Meets.bind (Path.meets_walk (Spot.up_children a) ?_) ?_
  · rw [h₁₀, h₉, h₈, h₇, h₆, h₅, h₄, h₃, h₂, h₁]
    simpa using hp
  rintro c' F₁₁ - ⟨h₁₁, -⟩
  refine Meets.bind (Path.meets_walk (t := .node ((D.count a + 1) :: a) .self)
    (s := .node a .children) rfl (by rw [h₁₁]; simp)) ?_
  rintro y F₁₂ - ⟨h₁₂, -⟩
  have hinserted : F.content.Inserted F₁₂.content a name (D.count a + 1) q.index := by
    have hnode : F.content.data (.node ((D.count a + 1) :: a) .self) = none :=
      F.sound.data (by rw [← Option.not_isSome_iff_eq_none, h.live]; exact h.not_live a)
    rw [h₁₂, h₁₁, h₁₀, h₉, h₈, h₇, h₆, h₅, h₄, h₃, h₂, h₁]
    constructor
    case same =>
      intro s hs
      simp only [not_or] at hs
      obtain ⟨hloose, hproperty, hentry, huser, hchildren, hposition, hself⟩ := hs
      have hproperties : s ≠ .node a .properties := by
        rintro rfl
        exact hloose trivial
      have hpositions : s ≠ .node a .positions := by
        rintro rfl
        exact hloose trivial
      rw [hindex] at huser
      simp [*]
    case property => simp
    case old => exact hq.imp_right And.left
    case entry => simp
    case position => simp
    case user => simp [hindex]
    case children => simp
    case node => simp
    case type => simpa using hnode
  have hold := h.toHolds.addChild F₁₂.sound hinserted hτ hnew
  have hy : F₁₂.content.place (.node ((D.count a + 1) :: a) .self) = some y.index := by
    rw [h₁₂, Content.make_place_self]
  refine Meets.bind (meets_id hold hy) ?_
  rintro _ F' - ⟨rfl, -⟩
  -- the node is new, so it has no mark
  have hmark : F'.content.data (.node ((D.count a + 1) :: a) .cascade) = none := by
    rw [hinserted.same.data (by simp)]
    apply F.sound.data
    apply F.sound.closed (s := .node ((D.count a + 1) :: a) .self)
    · exact (Spot.under_up (Spot.up_cascade _)).mpr (Or.inr (Spot.under_refl _))
    · rw [← Option.not_isSome_iff_eq_none, h.live]
      exact h.not_live a
  refine Meets.bind (meets_indexProperties hold hy hmark) ?_
  rintro _ F₁₃ - h₁₃
  have hs₁₃ : F₁₃.content.place (.node a (.property q.index)) = some s.index := by
    rw [h₁₃.same.place (by simp), h₁₂, h₁₁, h₁₀, h₉, h₈, h₇, h₆, h₅, h₄]
    simpa using hs₃
  refine (Path.meets_getData hs₁₃).mono ?_
  rintro n F'' - ⟨rfl, rfl⟩
  refine ⟨?_, h.addChild F'.sound hτ hnew hinserted h₁₃, fun b hb => ?_⟩
  · rw [h₁₃.same.data (by simp), hinserted.entry, Option.getD_some, ofData_toData]
  · rw [h₁₃.node, hinserted.place_self]
    rintro rfl
    exact h.not_live a hb

/-! ### Types -/

theorem meets_hasId (hp : F.content.place (.node a .self) = some p.index) :
    Meets (fun _ => hasId p) F fun _ F' => F.content.SameBut Spot.Loose F'.content := by
  refine Meets.bind (Path.meets_walk (Spot.up_id a) hp) ?_
  rintro q F₁ - ⟨h₁, -⟩
  refine (Path.meets_hasData (s := .node a .id) (by rw [h₁, Content.make_place_self])).mono ?_
  rintro _ F' - ⟨rfl, -⟩
  rw [h₁]
  exact .make trivial _

end JSON

/-- The file holds the tree with the type that is set for a node without one. -/
theorem Holds.setType {J : JSONDatabase} {D : NodeTree} {C : Content} {a : List ℕ} {τ : JSONType}
    (h : Holds J D C) (ha : D.Live a)
    (hkeys : ∀ i, D.key a i = none) (hτ : τ ≠ .undefined) :
    Holds J (D.setType a τ) (C.put (.node a .self) (some (toData τ))) where
  sound := h.sound.setType ha hτ hkeys
  json := h.json
  properties := h.properties
  words := h.words
  objects := h.objects
  live b := (h.live b).trans (NodeTree.live_setType b).symm
  type b := by
    rw [Content.put_data, NodeTree.setType]
    by_cases hb : b = a
    · subst hb
      simp
    · rw [if_neg (by simpa using hb)]
      simpa [Function.update_of_ne hb] using h.type b
  count b := by
    rw [Content.put_data_of_ne (by simp)]
    exact h.count b
  entry {b i p} hp := by
    obtain ⟨x, hx, hproperty, hposition⟩ := h.entry hp
    exact ⟨x, hx, by rwa [Content.put_data_of_ne (by simp)], by rwa [Content.put_data_of_ne
      (by simp)]⟩
  only hx := h.only hx
  used hp := h.used hp
  user := h.user

theorem NodeTree.setType_id {D : NodeTree} {a : List ℕ} {τ : JSONType} (L : Locale)
    (place : List ℕ → ℕ) (b : List ℕ) :
    (D.setType a τ).id L place b = D.id L place b := SameWay.id L ⟨fun _ => rfl, fun _ => rfl⟩

theorem NodeTree.setType_entries {D : NodeTree} {a : List ℕ} {τ : JSONType} (L : Locale)
    (place : List ℕ → ℕ) (b : List ℕ) :
    (D.setType a τ).entries L place b = D.entries L place b :=
  SameWay.entries L ⟨fun _ => rfl, fun _ => rfl⟩

/-- The words do not see types, nor what they do not count. -/
theorem Words.of_same {L : Locale} {D D' : NodeTree} {C C' : Content} {nodes : List (List ℕ)}
    (h : Words L D C nodes)
    (hlive : ∀ a, D'.Live a ↔ D.Live a) (hindex : C'.index = C.index)
    (hentries : ∀ a, D'.entries L C.index a = D.entries L C.index a)
    (hplace : ∀ s : Spot, s.OfWords → C'.place s = C.place s)
    (hdata : ∀ s : Spot, s.OfWords → C'.data s = C.data s) :
    Words L D' C' nodes := by
  have he : nodes.flatMap (D'.entries L C'.index) = nodes.flatMap (D.entries L C.index) := by
    rw [hindex]
    exact List.flatMap_congr fun a _ => hentries a
  constructor
  case nodup => exact h.nodup
  case live => intro a ha; rw [hlive]; exact h.live a ha
  case tally =>
    intro w k
    rw [Content.tally, hdata _ (by simp), he]
    exact h.tally w k
  case place => intro w k; rw [hplace _ (by simp), he]; exact h.place w k
  case word => intro w; rw [hplace _ (by simp), he]; exact h.word w

namespace JSON

variable {J : JSONDatabase} {L : Locale} {D : NodeTree} {F : File} {a : List ℕ} {i : ℕ} {p : Path}
    {name : BString} {τ : JSONType}

/-- A type that is set once more stays. -/
theorem meets_setType_same (h : Holds J D F.content)
    (hp : F.content.place (.node a .self) = some p.index)
    (hτ : D.type a = some τ) : Meets (fun fuel => setType J L fuel p τ) F fun _ F' => F' = F := by
  refine Meets.step ?_ fun fuel => setType.eq_2 J L p τ fuel
  refine Meets.bind (Path.meets_hasData hp) ?_
  rintro _ F' - ⟨rfl, rfl⟩
  rw [h.type a, hτ]
  refine Meets.bind (meets_type h hp) ?_
  rintro τ' F'' - ⟨rfl, rfl⟩
  simp only [hτ, Option.getD_some, ne_eq, not_true, if_false]
  exact Meets.ret rfl

/-- The id of a node that has got its type is added to the bounds. -/
theorem meets_addObject_setType {nodes : List (List ℕ)} (h : Indexed J L D F.content nodes)
    (hp : F.content.place (.node a .self) = some p.index) (hnone : D.type a = none)
    (hτ : τ ≠ .undefined) {F' : File}
    (hsame : (F.content.put (.node a .self) (some (toData τ))).SameBut Spot.Loose F'.content) :
    Meets (fun _ => addObject J L p) F' fun _ F'' => Indexed J L (D.setType a τ) F''.content nodes ∧
      ∀ b, F''.content.place (.node b .self) = F.content.place (.node b .self) := by
  have hplace : ∀ b, F'.content.place (.node b .self) = F.content.place (.node b .self) :=
    fun b => hsame.place (by simp)
  have hold : Holds J (D.setType a τ) F'.content :=
    (h.toHolds.setType (h.live_of_place hp) (h.sound.key_of_type hnone) hτ).of_sameBut
      (hsame.mono fun _ => Spot.Loose.aside)
  refine (meets_addObject hold (by rw [hplace]; exact hp)).mono ?_
  rintro _ F'' - ⟨hsame', hadd⟩
  have hplace' : ∀ b, F''.content.place (.node b .self) = F.content.place (.node b .self) := by
    intro b
    rw [hsame'.place (by simp), hplace]
  have hindex : F'.content.index = F.content.index :=
    funext fun b => by rw [Content.index, Content.index, hplace]
  have hindex' : F''.content.index = F.content.index :=
    funext fun b => by rw [Content.index, Content.index, hplace']
  refine ⟨⟨hold.of_sameBut (hsame'.mono fun _ => Spot.OfBounds.aside), fun x k => ?_, ?_⟩, hplace'⟩
  · -- the ids that were there, and the id of the node
    have hobject : F'.content.place (.objectId x k) = F.content.place (.objectId x k) :=
      hsame.place (by simp)
    rw [hadd, hobject, h.bounds, hindex, hindex']
    simp only [hplace, hplace', NodeTree.setType_id]
    constructor
    · rintro (⟨c, b, hc, hx, hcb, hb, rfl⟩ | ⟨rfl, c, hc, hca, hx⟩)
      · refine ⟨c, b, hc, hx, hcb, ?_, rfl⟩
        rwa [NodeTree.setType_type_of_ne (by rintro rfl; rw [hnone] at hb; cases hb)]
      · refine ⟨c, a, hc, hx, hca, ?_, rfl⟩
        rw [NodeTree.setType_type_self]
        rfl
    · rintro ⟨c, b, hc, hx, hcb, hb, rfl⟩
      by_cases hba : b = a
      · subst hba
        exact Or.inr ⟨rfl, c, hc, hcb, hx⟩
      · rw [NodeTree.setType_type_of_ne hba] at hb
        exact Or.inl ⟨c, b, hc, hx, hcb, hb, rfl⟩
  · have hput : ∀ s : Spot, s.OfWords → s ≠ .node a .self := by
      rintro s hs rfl
      exact hs
    refine h.counts.of_same NodeTree.live_setType hindex' (NodeTree.setType_entries L _)
      (fun s hs => ?_) fun s hs => ?_
    · rw [hsame'.place hs.not_ofBounds, hsame.place hs.not_loose, Content.put_place]
    · rw [hsame'.data hs.not_ofBounds, hsame.data hs.not_loose, Content.put_data_of_ne (hput s hs)]

/-- A node without a type gets one. -/
theorem meets_setType_new {nodes : List (List ℕ)} (h : Indexed J L D F.content nodes)
    (hp : F.content.place (.node a .self) = some p.index) (hnone : D.type a = none)
    (hτ : τ ≠ .undefined) :
    Meets (fun fuel => setType J L fuel p τ) F fun _ F' =>
      Indexed J L (D.setType a τ) F'.content nodes ∧
      ∀ b, F'.content.place (.node b .self) = F.content.place (.node b .self) := by
  refine Meets.step ?_ fun fuel => setType.eq_2 J L p τ fuel
  refine Meets.bind (Path.meets_hasData hp) ?_
  rintro _ F' - ⟨rfl, rfl⟩
  simp only [h.type a, hnone, Option.map_none, Option.isSome_none, Bool.not_false, if_true]
  refine Meets.bind (Path.meets_setData hp τ) ?_
  rintro _ F₁ - h₁
  have hp₁ : F₁.content.place (.node a .self) = some p.index := by rw [h₁]; exact hp
  refine Meets.bind (meets_hasId hp₁) ?_
  rintro b F₂ - hsame
  have hadd := meets_addObject_setType h hp hnone hτ (h₁ ▸ hsame)
  cases b with
  | true => exact hadd
  | false =>
    have hold := (h.toHolds.setType (h.live_of_place hp) (h.sound.key_of_type hnone) hτ).of_sameBut
      ((h₁ ▸ hsame).mono fun _ => Spot.Loose.aside)
    refine Meets.bind (meets_id hold (by rw [hsame.place (by simp)]; exact hp₁)) ?_
    rintro _ F'' - ⟨rfl, -⟩
    exact hadd

/-- The child of a property that is there. -/
theorem meets_child_of_some (h : Holds J D F.content)
    (hp : F.content.place (.node a .self) = some p.index)
    (hi : D.key a i = some (.string name)) :
    Meets (fun fuel => child J L fuel p name) F fun q F' => F' = F ∧
      F.content.place (.node (i :: a) .self) = some q.index := by
  obtain ⟨j, hj⟩ := h.exists_place (h.sound.live_of_key hi)
  obtain ⟨k, hk⟩ := Option.isSome_iff_exists.mp (File.isSome_of_place hj
    ((Spot.under_up (t := .node (i :: a) .self) (u := .node a .children) rfl).mpr
      (Or.inr (Spot.under_refl _))))
  refine Meets.step ?_ fun fuel => child.eq_2 J L p name fuel
  refine Meets.bind (meets_setType_same h hp (h.sound.string hi)) ?_
  rintro _ F' - rfl
  refine Meets.bind (meets_getObjectPropertyPosition_of_some h hp hi) ?_
  rintro position F'' - ⟨rfl, rfl⟩
  refine Meets.bind (Path.meets_walk_of_some (Spot.up_children a) hp hk) ?_
  rintro c F' - ⟨rfl, rfl⟩
  refine (Path.meets_walk_of_some (t := .node (position :: a) .self) (s := .node a .children)
    rfl hk hj).mono ?_
  rintro q F' - ⟨rfl, rfl⟩
  exact ⟨rfl, hj⟩

end JSON

end BeeFish
