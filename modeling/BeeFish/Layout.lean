/-
# Layouts

A `Layout` says which bit strings have a branch in the file, where its record
stands, and where its data stands and what it is. It is a tree (`Layout.WF`)
in which children stand after their parents and no two branches share a place
or a blob. A new leaf (`WF.put_leaf`), other data of a node (`WF.put_data`)
and the removal of a subtree (`WF.prune`) keep it so.

Key definitions: `Node`, `Layout`, `Layout.branch`, `Layout.WF`.
-/
import BeeFish.Database

namespace BeeFish

/-- The place of a branch, and of its data, if any, with the data. -/
structure Node where
  place : ℕ
  data : Option (ℕ × BString)
  deriving DecidableEq

/-- The data of the node. -/
def Node.value (n : Node) : Option BString := n.data.map Prod.snd

/-- The place of the data of the node, zero if it has none. -/
def Node.dataIndex (n : Node) : ℕ := (n.data.map Prod.fst).getD 0

abbrev Layout := List Bool → Option Node

namespace Layout

/-- The place of the branch at `w`, zero if there is none. -/
def place (L : Layout) (w : List Bool) : ℕ := ((L w).map Node.place).getD 0

/-- The record of the node at `w`. -/
def branch (L : Layout) (w : List Bool) (n : Node) : Branch :=
  ⟨L.place w.dropLast, L.place (w ++ [false]), L.place (w ++ [true]), n.dataIndex⟩

/-- The layout with the node `n` at `w`. -/
def put (L : Layout) (w : List Bool) (n : Node) : Layout := Function.update L w (some n)

/-- The layout without `w` and all below it. -/
def prune (L : Layout) (w : List Bool) : Layout := fun u => if w <+: u then none else L u

/-- The branches are a tree with its root at zero, children stand after their
parents, and no place and no blob belongs to two of them. -/
structure WF (L : Layout) : Prop where
  root : ∃ n, L [] = some n ∧ n.place = 0
  closed : ∀ {w c n}, L (w ++ [c]) = some n → ∃ m, L w = some m ∧ m.place < n.place
  inj : ∀ {u w m n}, L u = some m → L w = some n → m.place = n.place → u = w
  owner : ∀ {u w m n i v v'}, L u = some m → L w = some n → m.data = some (i, v) →
    n.data = some (i, v') → u = w

variable {L : Layout}

theorem place_of {w : List Bool} {n : Node} (h : L w = some n) : L.place w = n.place := by
  simp [place, h]

theorem place_of_none {w : List Bool} (h : L w = none) : L.place w = 0 := by simp [place, h]

@[simp] theorem branch_child (L : Layout) (w : List Bool) (n : Node) (c : Bool) :
    (L.branch w n).child c = L.place (w ++ [c]) := by cases c <;> rfl

@[simp] theorem put_same (L : Layout) (w : List Bool) (n : Node) : L.put w n w = some n :=
  Function.update_self ..

theorem put_of_ne {u w : List Bool} (h : u ≠ w) (n : Node) : L.put w n u = L u :=
  Function.update_of_ne h ..

theorem put_self {w : List Bool} {n : Node} (h : L w = some n) : L.put w n = L :=
  Function.update_eq_self_iff.mpr h.symm

theorem put_eq_some {u w : List Bool} {m k : Node} (h : L.put w m u = some k) :
    u = w ∧ k = m ∨ u ≠ w ∧ L u = some k := by
  by_cases hu : u = w
  · subst hu
    rw [put_same] at h
    exact Or.inl ⟨rfl, (Option.some.inj h).symm⟩
  · rw [put_of_ne hu] at h
    exact Or.inr ⟨hu, h⟩

theorem prune_of_isPrefix {u w : List Bool} (h : w <+: u) : L.prune w u = none := if_pos h

theorem prune_of_not {u w : List Bool} (h : ¬ w <+: u) : L.prune w u = L u := if_neg h

theorem prune_eq_some {u w : List Bool} {n : Node} : L.prune w u = some n ↔ ¬ w <+: u ∧
    L u = some n := by
  unfold prune
  split_ifs with h <;> simp [h]

theorem WF.place_pos (h : L.WF) {w : List Bool} {n : Node} (hw : w ≠ []) (hn : L w = some n) :
    0 < n.place := by
  obtain ⟨m, hm, h0⟩ := h.root
  by_contra hp
  exact hw (h.inj hn hm (by omega))

theorem WF.place_ne_zero (h : L.WF) {w : List Bool} (hw : w ≠ []) : L.place w ≠ 0 ↔
    (L w).isSome = true := by
  cases hn : L w with
  | none => simp [place_of_none hn]
  | some n => simpa [place_of hn] using (h.place_pos hw hn).ne'

/-- The branches above a branch are there. -/
theorem WF.of_isPrefix (h : L.WF) {u w : List Bool} {n : Node} (hw : L w = some n) (hu : u <+: w) :
    ∃ m, L u = some m := by
  obtain ⟨v, rfl⟩ := hu
  induction v using List.reverseRecOn generalizing n with
  | nil => exact ⟨n, by simpa using hw⟩
  | append_singleton v c ih =>
    rw [← List.append_assoc] at hw
    obtain ⟨m, hm, -⟩ := h.closed hw
    exact ih hm

/-- A node is no deeper than its place. -/
theorem WF.length_le (h : L.WF) : ∀ {w : List Bool} {n : Node}, L w = some n →
    w.length ≤ n.place := by
  intro w
  induction w using List.reverseRecOn with
  | nil => simp
  | append_singleton w c ih =>
    intro n hn
    obtain ⟨m, hm, hlt⟩ := h.closed hn
    have := ih hm
    simp only [List.length_append, List.length_singleton]
    omega

/-- A branch does not stand before the branches above it. -/
theorem WF.place_le (h : L.WF) {u w : List Bool} {m n : Node} (hm : L u = some m)
    (hn : L w = some n) (hu : u <+: w) :
    m.place ≤ n.place := by
  obtain ⟨v, rfl⟩ := hu
  induction v using List.reverseRecOn generalizing n with
  | nil =>
    rw [List.append_nil, hm] at hn
    rw [Option.some.inj hn]
  | append_singleton v c ih =>
    rw [← List.append_assoc] at hn
    obtain ⟨k, hk, hlt⟩ := h.closed hn
    exact (ih hk).trans hlt.le

theorem WF.prune (h : L.WF) {w : List Bool} (hw : w ≠ []) : (L.prune w).WF where
  root := by
    obtain ⟨n, hn, h0⟩ := h.root
    exact ⟨n, prune_eq_some.mpr ⟨fun hp => hw (List.prefix_nil.mp hp), hn⟩, h0⟩
  closed hn := by
    obtain ⟨hp, hn⟩ := prune_eq_some.mp hn
    obtain ⟨m, hm, hlt⟩ := h.closed hn
    exact ⟨m, prune_eq_some.mpr ⟨fun hq => hp (hq.trans (List.prefix_append _ _)), hm⟩, hlt⟩
  inj hm hn he := h.inj (prune_eq_some.mp hm).2 (prune_eq_some.mp hn).2 he
  owner hm hn hi hj := h.owner (prune_eq_some.mp hm).2 (prune_eq_some.mp hn).2 hi hj

/-- A new leaf at a place no other branch has. -/
theorem WF.put_leaf (h : L.WF) {w : List Bool} {c : Bool} {n m : Node} (hw : L w = some n)
    (hc : L (w ++ [c]) = none) (hlt : n.place < m.place) (hd : m.data = none)
    (hnew : ∀ u k, L u = some k → k.place ≠ m.place) : (L.put (w ++ [c]) m).WF := by
  refine ⟨?_, ?_, ?_, ?_⟩
  · obtain ⟨r, hr, h0⟩ := h.root
    exact ⟨r, by rwa [put_of_ne (by simp)], h0⟩
  · intro u b k hk
    rcases put_eq_some hk with ⟨hu, rfl⟩ | ⟨hu, hk⟩
    · obtain ⟨rfl, -⟩ := List.append_inj' hu rfl
      exact ⟨n, by rwa [put_of_ne (by simp)], hlt⟩
    · obtain ⟨j, hj, hlt⟩ := h.closed hk
      refine ⟨j, ?_, hlt⟩
      rwa [put_of_ne]
      rintro rfl
      rw [hc] at hj
      cases hj
  · intro u v j k hj hk he
    rcases put_eq_some hj with ⟨hu, hjm⟩ | ⟨-, hj'⟩ <;>
      rcases put_eq_some hk with ⟨hv, hkm⟩ | ⟨-, hk'⟩
    · exact hu.trans hv.symm
    · exact absurd (hjm ▸ he.symm) (hnew _ _ hk')
    · exact absurd (hkm ▸ he) (hnew _ _ hj')
    · exact h.inj hj' hk' he
  · intro u v j k i x x' hj hk hi hi'
    rcases put_eq_some hj with ⟨rfl, rfl⟩ | ⟨hu, hj⟩
    · rw [hd] at hi
      cases hi
    · rcases put_eq_some hk with ⟨rfl, rfl⟩ | ⟨hv, hk⟩
      · rw [hd] at hi'
        cases hi'
      · exact h.owner hj hk hi hi'

/-- Other data of one node, in a blob no other node has. -/
theorem WF.put_data (h : L.WF) {w : List Bool} {n m : Node} (hw : L w = some n)
    (hp : m.place = n.place)
    (hd : ∀ i v u k v', m.data = some (i, v) → L u = some k → k.data = some (i, v') → u = w) :
    (L.put w m).WF := by
  have hplace : ∀ {u k}, L.put w m u = some k → ∃ j, L u = some j ∧ j.place = k.place := by
    intro u k hk
    rcases put_eq_some hk with ⟨rfl, rfl⟩ | ⟨-, hk⟩
    · exact ⟨n, hw, hp.symm⟩
    · exact ⟨k, hk, rfl⟩
  have hput : ∀ {u k}, L u = some k → ∃ j, L.put w m u = some j ∧ j.place = k.place := by
    intro u k hk
    by_cases hu : u = w
    · subst hu
      rw [hw] at hk
      obtain rfl := Option.some.inj hk
      exact ⟨m, put_same .., hp⟩
    · exact ⟨k, by rwa [put_of_ne hu], rfl⟩
  refine ⟨?_, ?_, ?_, ?_⟩
  · obtain ⟨r, hr, h0⟩ := h.root
    obtain ⟨j, hj, he⟩ := hput hr
    exact ⟨j, hj, he.trans h0⟩
  · intro u c k hk
    obtain ⟨j, hj, he⟩ := hplace hk
    obtain ⟨i, hi, hlt⟩ := h.closed hj
    obtain ⟨i', hi', he'⟩ := hput hi
    exact ⟨i', hi', by omega⟩
  · intro u v j k hj hk he
    obtain ⟨j', hj', hje⟩ := hplace hj
    obtain ⟨k', hk', hke⟩ := hplace hk
    exact h.inj hj' hk' (by omega)
  · intro u v j k i x x' hj hk hi hi'
    rcases put_eq_some hj with ⟨hu, rfl⟩ | ⟨-, hj'⟩ <;>
      rcases put_eq_some hk with ⟨hv, hkm⟩ | ⟨-, hk'⟩
    · exact hu.trans hv.symm
    · exact hu.trans (hd _ _ _ _ _ hi hk' hi').symm
    · exact (hd _ _ _ _ _ (hkm ▸ hi') hj' hi).trans hv.symm
    · exact h.owner hj' hk' hi hi'

end Layout

end BeeFish
