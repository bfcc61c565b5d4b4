/-
# The spots of a JSON database

A JSON database walks to few kinds of paths of keys: the parts of a node of the
document, the properties with the objects that have them, the words and the
sets of the bounds index with the ids in them. Each such path is a `Spot`. No
two spots have the same keys (`Spot.keys_injective`), and which spots stand
below another is read off their constructors (`Spot.under`).

An address is the way to a node from the JSON root, by positions, the last one
first.

Key definitions: `NodePart`, `Spot`, `Spot.keys`, `Spot.Under`.
-/
import BeeFish.JSONNode
import BeeFish.Store

namespace BeeFish

theorem Key.of_inj {α : Type} [Encoded α] [LawfulEncoded α] {a b : α} :
    Key.of a = Key.of b ↔ a = b :=
  ⟨fun h => encode_injective (congrArg Key.bits h), fun h => h ▸ rfl⟩

/-- What stands below a node. -/
inductive NodePart where
  | self
  | value
  | page (index : ℕ)
  | properties
  | property (index : ℕ)
  | positions
  | position (position : ℕ)
  | cascade
  | id
  | children
  deriving DecidableEq

inductive Spot where
  | root
  | authentication
  | users
  | node (address : List ℕ) (part : NodePart)
  | properties
  | property (property : BString)
  | user (property : BString) (index : ℕ)
  | words
  | word (word : BString)
  | wordId (word : BString) (id : Key)
  | objects
  | object (index : ℕ)
  | objectId (index : ℕ) (id : Key)
  deriving DecidableEq

namespace Spot

/-! ### Keys -/

/-- The spot one key up, and the key. -/
def up : Spot → Option (Spot × Key)
  | root => none
  | authentication => some (root, JSONDatabase.authenticationKey)
  | users => some (root, JSONDatabase.usersKey)
  | node [] .self => some (root, JSONDatabase.jsonKey)
  | node (position :: a) .self => some (node a .children, .of position)
  | node a .value => some (node a .self, JSON.valueKey)
  | node a (.page index) => some (node a .value, .of index)
  | node a .properties => some (node a .self, JSON.propertiesKey)
  | node a (.property index) => some (node a .properties, .of index)
  | node a .positions => some (node a .self, JSON.positionsKey)
  | node a (.position position) => some (node a .positions, .of position)
  | node a .cascade => some (node a .self, JSON.cascadeKey)
  | node a .id => some (node a .self, JSON.idKey)
  | node a .children => some (node a .self, JSON.childrenKey)
  | properties => some (root, JSONDatabase.propertiesKey)
  | property s => some (properties, .of s)
  | user s index => some (property s, .of index)
  | words => some (root, JSONDatabase.wordsKey)
  | word s => some (words, .of s)
  | wordId s id => some (word s, id)
  | objects => some (root, JSONDatabase.objectsKey)
  | object index => some (objects, .of index)
  | objectId index id => some (object index, id)

/-- The keys of a node. -/
def nodeKeys : List ℕ → List Key
  | [] => [JSONDatabase.jsonKey]
  | position :: a => nodeKeys a ++ [JSON.childrenKey, .of position]

def partKeys : NodePart → List Key
  | .self => []
  | .value => [JSON.valueKey]
  | .page index => [JSON.valueKey, .of index]
  | .properties => [JSON.propertiesKey]
  | .property index => [JSON.propertiesKey, .of index]
  | .positions => [JSON.positionsKey]
  | .position position => [JSON.positionsKey, .of position]
  | .cascade => [JSON.cascadeKey]
  | .id => [JSON.idKey]
  | .children => [JSON.childrenKey]

/-- The path of keys from the root of the file. -/
def keys : Spot → List Key
  | root => []
  | authentication => [JSONDatabase.authenticationKey]
  | users => [JSONDatabase.usersKey]
  | node a part => nodeKeys a ++ partKeys part
  | properties => [JSONDatabase.propertiesKey]
  | property s => [JSONDatabase.propertiesKey, .of s]
  | user s index => [JSONDatabase.propertiesKey, .of s, .of index]
  | words => [JSONDatabase.wordsKey]
  | word s => [JSONDatabase.wordsKey, .of s]
  | wordId s id => [JSONDatabase.wordsKey, .of s, id]
  | objects => [JSONDatabase.objectsKey]
  | object index => [JSONDatabase.objectsKey, .of index]
  | objectId index id => [JSONDatabase.objectsKey, .of index, id]

theorem keys_up {s t : Spot} {k : Key} (h : s.up = some (t, k)) : s.keys = t.keys ++ [k] := by
  unfold up at h
  split at h
  · cases h
  all_goals
    obtain ⟨rfl, rfl⟩ := Prod.mk.inj (Option.some.inj h)
    simp [keys, nodeKeys, partKeys]

theorem eq_root_of_up {s : Spot} (h : s.up = none) : s = root := by
  unfold up at h
  split at h <;> first | rfl | cases h

theorem up_injective {s t : Spot} {r : Spot × Key} (hs : s.up = some r) (ht : t.up = some r) :
    s = t := by
  unfold up at hs
  split at hs
  · cases hs
  all_goals
    obtain rfl := Option.some.inj hs
    unfold up at ht
    split at ht <;>
      simp_all only [Option.some.injEq, Prod.mk.injEq, reduceCtorEq, false_and, and_false, true_and,
        and_true, Key.of_inj,
        node.injEq, property.injEq, word.injEq, object.injEq, JSONDatabase.authenticationKey,
          JSONDatabase.usersKey,
        JSONDatabase.jsonKey, JSONDatabase.propertiesKey, JSONDatabase.wordsKey,
          JSONDatabase.objectsKey, JSON.valueKey,
        JSON.propertiesKey, JSON.positionsKey, JSON.cascadeKey, JSON.idKey, JSON.childrenKey,
          Nat.reduceEqDiff]

theorem keys_injective {s t : Spot} (h : s.keys = t.keys) : s = t := by
  cases hs : s.up with
  | none =>
    obtain rfl := eq_root_of_up hs
    cases ht : t.up with
    | none => exact (eq_root_of_up ht).symm
    | some r =>
      rw [keys_up (t := r.1) (k := r.2) ht] at h
      simp [keys] at h
  | some r =>
    cases ht : t.up with
    | none =>
      obtain rfl := eq_root_of_up ht
      rw [keys_up (t := r.1) (k := r.2) hs] at h
      simp [keys] at h
    | some q =>
      have hsr := keys_up (t := r.1) (k := r.2) hs
      have htq := keys_up (t := q.1) (k := q.2) ht
      rw [hsr, htq] at h
      obtain ⟨hkeys, hkey⟩ := List.append_inj' h rfl
      have hup : r.1 = q.1 := keys_injective hkeys
      have hrq : r = q := Prod.ext hup (List.cons.inj hkey).1
      exact up_injective hs (hrq ▸ ht)
termination_by s.keys.length
decreasing_by simp [hsr]

/-! ### Below a spot -/

/-- `t` is `s` or stands below it. -/
def Under (s t : Spot) : Prop := s.keys <+: t.keys

theorem under_refl (s : Spot) : s.Under s := List.prefix_rfl

theorem under_up {s t u : Spot} {k : Key} (h : t.up = some (u, k)) : s.Under t ↔ s = t ∨
    s.Under u := by
  unfold Under
  rw [keys_up h, List.prefix_concat_iff]
  constructor
  · rintro (he | hp)
    · exact Or.inl (keys_injective (he.trans (keys_up h).symm))
    · exact Or.inr hp
  · rintro (rfl | hp)
    · exact Or.inl (keys_up h)
    · exact Or.inr hp

/-- What is above a spot is a spot. -/
theorem exists_of_isPrefix {t : Spot} {ks : List Key} (h : ks <+: t.keys) : ∃ s : Spot,
    s.keys = ks := by
  cases ht : t.up with
  | none =>
    obtain rfl := eq_root_of_up ht
    exact ⟨root, (List.prefix_nil.mp h).symm⟩
  | some r =>
    have hkeys := keys_up (t := r.1) (k := r.2) ht
    rw [hkeys, List.prefix_concat_iff] at h
    rcases h with rfl | h
    · exact ⟨t, hkeys⟩
    · exact exists_of_isPrefix h
termination_by t.keys.length
decreasing_by simp [hkeys]

section

variable {s : Spot} {a b : List ℕ}

@[simp] theorem under_root : s.Under root ↔ s = root := by
  unfold Under
  rw [keys, List.prefix_nil]
  exact ⟨fun h => keys_injective h, fun h => h ▸ rfl⟩

@[simp] theorem under_authentication : s.Under authentication ↔ s = authentication ∨ s = root := by
  rw [under_up rfl, under_root]

@[simp] theorem under_users : s.Under users ↔ s = users ∨ s = root := by
  rw [under_up rfl, under_root]

@[simp] theorem under_properties : s.Under properties ↔ s = properties ∨ s = root := by
  rw [under_up rfl, under_root]

@[simp] theorem under_property {p : BString} : s.Under (property p) ↔ s = property p ∨
    s = properties ∨ s = root := by
  rw [under_up rfl, under_properties]

@[simp] theorem under_user {p : BString} {index : ℕ} :
    s.Under (user p index) ↔ s = user p index ∨ s = property p ∨ s = properties ∨ s = root := by
  rw [under_up rfl, under_property]

@[simp] theorem under_words : s.Under words ↔ s = words ∨ s = root := by
  rw [under_up rfl, under_root]

@[simp] theorem under_word {w : BString} : s.Under (word w) ↔ s = word w ∨ s = words ∨
    s = root := by
  rw [under_up rfl, under_words]

@[simp] theorem under_wordId {w : BString} {id : Key} :
    s.Under (wordId w id) ↔ s = wordId w id ∨ s = word w ∨ s = words ∨ s = root := by
  rw [under_up rfl, under_word]

@[simp] theorem under_objects : s.Under objects ↔ s = objects ∨ s = root := by
  rw [under_up rfl, under_root]

@[simp] theorem under_object {index : ℕ} : s.Under (object index) ↔ s = object index ∨ s = objects ∨
    s = root := by
  rw [under_up rfl, under_objects]

@[simp] theorem under_objectId {index : ℕ} {id : Key} :
    s.Under (objectId index id) ↔ s = objectId index id ∨ s = object index ∨ s = objects ∨
      s = root := by
  rw [under_up rfl, under_object]

/-- The part of a node above a part. -/
def above : NodePart → NodePart
  | .page _ => .value
  | .property _ => .properties
  | .position _ => .positions
  | _ => .self

theorem up_part {part : NodePart} (h : part ≠ .self) :
    ∃ k, (node a part).up = some (node a (above part), k) := by
  cases a <;> cases part <;> first | exact absurd rfl h | exact ⟨_, rfl⟩

/-- A part of a node stands below the node or below one of its own parts. -/
theorem under_part {part : NodePart} (h : part ≠ .self) :
    s.Under (node a part) ↔ s = node a part ∨ s = node a (above part) ∨ s.Under (node a .self) := by
  obtain ⟨k, hk⟩ := up_part (a := a) h
  rw [under_up hk]
  by_cases habove : above part = .self
  · rw [habove]
    constructor
    · rintro (h | h)
      · exact Or.inl h
      · exact Or.inr (Or.inr h)
    · rintro (h | rfl | h)
      · exact Or.inl h
      · exact Or.inr (under_refl _)
      · exact Or.inr h
  · obtain ⟨j, hj⟩ := up_part (a := a) habove
    rw [under_up hj]
    have habove' : above (above part) = .self := by cases part <;> rfl
    rw [habove']

/-- A node stands below the nodes on its way. -/
@[simp] theorem under_self : ∀ {b : List ℕ}, s.Under (node b .self) ↔
    s = root ∨ (∃ a, a <:+ b ∧ s = node a .self) ∨ ∃ position a, position :: a <:+ b ∧
      s = node a .children
  | [] => by
    rw [under_up rfl, under_root]
    simp [or_comm]
  | position :: b => by
    have hb : (node b .children).up = some (node b .self, JSON.childrenKey) := by cases b <;> rfl
    rw [under_up rfl, under_up hb, under_self]
    simp only [List.suffix_cons_iff]
    constructor
    · rintro (rfl | rfl | rfl | ⟨a, ha, rfl⟩ | ⟨i, a, ha, rfl⟩)
      · exact Or.inr (Or.inl ⟨_, Or.inl rfl, rfl⟩)
      · exact Or.inr (Or.inr ⟨position, b, Or.inl rfl, rfl⟩)
      · exact Or.inl rfl
      · exact Or.inr (Or.inl ⟨a, Or.inr ha, rfl⟩)
      · exact Or.inr (Or.inr ⟨i, a, Or.inr ha, rfl⟩)
    · rintro (rfl | ⟨a, rfl | ha, rfl⟩ | ⟨i, a, hi | ha, rfl⟩)
      · exact Or.inr (Or.inr (Or.inl rfl))
      · exact Or.inl rfl
      · exact Or.inr (Or.inr (Or.inr (Or.inl ⟨a, ha, rfl⟩)))
      · obtain ⟨rfl, rfl⟩ := List.cons.inj hi
        exact Or.inr (Or.inl rfl)
      · exact Or.inr (Or.inr (Or.inr (Or.inr ⟨i, a, ha, rfl⟩)))

/-- All the parts of the nodes at and below a node stand below it. -/
theorem node_under {part : NodePart} : (node a .self).Under (node b part) ↔ a <:+ b := by
  have hself : (node a .self).Under (node b .self) ↔ a <:+ b := by simp
  by_cases h : part = .self
  · rw [h, hself]
  · rw [under_part h, hself]
    cases part <;> simp_all [above]

end

end Spot

end BeeFish
