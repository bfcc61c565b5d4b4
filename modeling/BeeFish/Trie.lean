/-
# The tree in the file

`Rep db Γ L` says that the heap `Γ` of the file `db` is laid out as `L`: the
record of the branch at `w` has the places of the branches one bit up and one
bit down and of its data. Every operation of a path is an update of the
layout: going to a missing child puts a new leaf, setting data replaces the
data of one node, deleting a branch prunes the layout below it. What the
layout does not change keeps its place and its contents in the file.

Deleted records stay in the file and in the heap, but the layout has them no
more. A deleted branch keeps the link to its parent and has no other, and no
operation touches it again (`Evolves`), so a path that stands on it can still
go up. While a subtree is being deleted it is no longer linked from above;
`deletes` needs the links inside it only.

Key definitions: `Rep`, `Evolves`.
-/
import BeeFish.Heap
import BeeFish.Layout
import BeeFish.Path

namespace BeeFish

open BitCode

/-- The file holds a heap that is laid out as `L`. -/
structure Rep (db : Database) (Γ : Heap) (L : Layout) : Prop extends Layout.WF L where
  holds : db.Holds Γ
  branch : ∀ {w n}, L w = some n → Γ n.place = some (.branch (L.branch w n))
  blob : ∀ {w n i v}, L w = some n → n.data = some (i, v) → Γ i = some (.blob v)

/-- No branch of the layout stands at `i`. -/
def Layout.Gone (L : Layout) (i : ℕ) : Prop := ∀ u m, L u = some m → m.place ≠ i

/-- Records of branches that the layout does not have stay as they are. A
branch of the layout keeps its place, or it is cut off and keeps the link to
its parent only. A new branch stands past the end of the old file. -/
structure Evolves (size : ℕ) (Γ : Heap) (L : Layout) (Γ' : Heap) (L' : Layout) : Prop where
  gone : ∀ {i b}, Γ i = some (.branch b) → L.Gone i → Γ' i = some (.branch b) ∧ L'.Gone i
  old : ∀ {w n}, L w = some n → (∃ m, L' w = some m ∧ m.place = n.place) ∨
    L'.Gone n.place ∧ Γ' n.place = some (.branch (.new (L.place w.dropLast)))
  new : ∀ {w m}, L' w = some m → (∃ n, L w = some n ∧ m.place = n.place) ∨ size ≤ m.place

namespace Evolves

variable {size size' : ℕ} {Γ Γ' Γ'' : Heap} {L L' L'' : Layout}

theorem refl : Evolves size Γ L Γ L where
  gone hi hg := ⟨hi, hg⟩
  old hn := Or.inl ⟨_, hn, rfl⟩
  new hm := Or.inl ⟨_, hm, rfl⟩

theorem trans (hL : L.WF) (hL' : L'.WF) (hlt : ∀ {w n}, L w = some n → n.place < size)
    (hs : size ≤ size')
    (h : Evolves size Γ L Γ' L') (h' : Evolves size' Γ' L' Γ'' L'') : Evolves size Γ L Γ'' L'' where
  gone hi hg := by
    obtain ⟨hi', hg'⟩ := h.gone hi hg
    exact h'.gone hi' hg'
  old {w n} hn := by
    rcases h.old hn with ⟨m, hm, hp⟩ | ⟨hg, hc⟩
    · rcases h'.old hm with ⟨k, hk, hq⟩ | ⟨hg, hc⟩
      · exact Or.inl ⟨k, hk, hq.trans hp⟩
      · refine Or.inr ⟨hp ▸ hg, ?_⟩
        -- the parent of an old branch is an old branch
        have hparent : L'.place w.dropLast = L.place w.dropLast := by
          rcases List.eq_nil_or_concat w with rfl | ⟨v, c, rfl⟩
          · rw [List.dropLast_nil, Layout.place_of hm, Layout.place_of hn, hp]
          · rw [List.concat_eq_append] at hm hn
            rw [List.concat_eq_append, List.dropLast_concat]
            obtain ⟨j, hj, -⟩ := hL.closed hn
            obtain ⟨j', hj', hlt'⟩ := hL'.closed hm
            rcases h.new hj' with ⟨k, hk, hq⟩ | hge
            · rw [Layout.place_of hj', hq, Layout.place_of hk]
            · have := hlt hn
              omega
        rw [← hp, ← hparent]
        exact hc
    · exact Or.inr (h'.gone hc hg).symm
  new {w m} hm := by
    rcases h'.new hm with ⟨k, hk, hq⟩ | hge
    · rcases h.new hk with ⟨n, hn, hp⟩ | hge
      · exact Or.inl ⟨n, hn, hq.trans hp⟩
      · exact Or.inr (by omega)
    · exact Or.inr (by omega)

end Evolves

namespace Rep

variable {db : Database} {Γ : Heap} {L : Layout} {w : List Bool} {n : Node}

theorem place_lt (h : Rep db Γ L) (hw : L w = some n) : n.place < db.size :=
  h.holds.lt_size (h.branch hw)

theorem getBranch (h : Rep db Γ L) (hw : L w = some n) : db.getBranch n.place = L.branch w n :=
  h.holds.getBranch (h.branch hw)

theorem blob_ne_place (h : Rep db Γ L) {u : List Bool} {m : Node} {i : ℕ} {v : BString}
    (hw : L w = some n)
    (hu : L u = some m) (hi : m.data = some (i, v)) : i ≠ n.place := by
  rintro rfl
  have h1 := h.blob hu hi
  rw [h.branch hw] at h1
  cases h1

theorem blob_ne_zero (h : Rep db Γ L) {i : ℕ} {v : BString} (hw : L w = some n)
    (hi : n.data = some (i, v)) :
    i ≠ 0 := by
  obtain ⟨r, hr, h0⟩ := h.root
  exact h0 ▸ h.blob_ne_place hr hw hi

/-- The new database has the root only. -/
theorem create : Rep Database.create (Function.update (fun _ => none) 0 (some (.branch (.new 0))))
    (Layout.put (fun _ => none) [] ⟨0, none⟩) where
  root := ⟨_, Layout.put_same .., rfl⟩
  closed hn := by rw [Layout.put_of_ne (by simp)] at hn; cases hn
  inj hm hn _ := by
    rcases Layout.put_eq_some hm with ⟨rfl, -⟩ | ⟨-, h⟩
    · rcases Layout.put_eq_some hn with ⟨rfl, -⟩ | ⟨-, h⟩
      · rfl
      · cases h
    · cases h
  owner hm hn _ _ := by
    rcases Layout.put_eq_some hm with ⟨rfl, -⟩ | ⟨-, h⟩
    · rcases Layout.put_eq_some hn with ⟨rfl, -⟩ | ⟨-, h⟩
      · rfl
      · cases h
    · cases h
  holds := Database.holds_create
  branch hn := by
    rcases Layout.put_eq_some hn with ⟨rfl, rfl⟩ | ⟨-, h⟩
    · rfl
    · cases h
  blob hn hi := by
    rcases Layout.put_eq_some hn with ⟨rfl, rfl⟩ | ⟨-, h⟩
    · cases hi
    · cases h

/-! ### Data -/

theorem place_put_data (hw : L w = some n) {m : Node} (hp : m.place = n.place) (u : List Bool) :
    Layout.place (L.put w m) u = L.place u := by
  by_cases hu : u = w
  · subst hu
    simp [Layout.place, hw, hp]
  · simp [Layout.place, Layout.put_of_ne hu]

theorem branch_put_data (hw : L w = some n) {m : Node} (hp : m.place = n.place) (u : List Bool)
    (k : Node) :
    Layout.branch (L.put w m) u k = L.branch u k := by
  simp only [Layout.branch, place_put_data hw hp]

/-- Other data of one node: its record points to it, and the records of the
others are left alone. -/
theorem put_data (h : Rep db Γ L) (hw : L w = some n) {db' : Database} {Γ' : Heap}
    (d : Option (ℕ × BString))
    (hholds : db'.Holds Γ') (hbranch : Γ' n.place = some (.branch (L.branch w ⟨n.place, d⟩)))
    (hblob : ∀ i v, d = some (i, v) → Γ' i = some (.blob v))
    (howner : ∀ i v u k v', d = some (i, v) → L u = some k → k.data = some (i, v') → u = w)
    (hkeep : ∀ i r, Γ i = some r → i ≠ n.place → (∀ v, n.data ≠ some (i, v)) → Γ' i = some r) :
    Rep db' Γ' (L.put w ⟨n.place, d⟩) where
  toWF := h.toWF.put_data hw rfl howner
  holds := hholds
  branch {u k} hk := by
    rw [branch_put_data hw (m := ⟨n.place, d⟩) rfl]
    rcases Layout.put_eq_some hk with ⟨rfl, rfl⟩ | ⟨hu, hk⟩
    · exact hbranch
    · refine hkeep _ _ (h.branch hk) (fun he => hu (h.inj hk hw he)) fun v hv => ?_
      exact h.blob_ne_place hk hw hv rfl
  blob {u k i v} hk hi := by
    rcases Layout.put_eq_some hk with ⟨rfl, rfl⟩ | ⟨hu, hk⟩
    · exact hblob i v hi
    · refine hkeep _ _ (h.blob hk hi) (h.blob_ne_place hw hk hi) fun v' hv => ?_
      exact hu (h.owner hk hw hi hv)

theorem evolves_put_data (h : Rep db Γ L) (hw : L w = some n) {Γ' : Heap} (size : ℕ)
    (d : Option (ℕ × BString))
    (hkeep : ∀ i r, Γ i = some r → i ≠ n.place → (∀ v, n.data ≠ some (i, v)) → Γ' i = some r) :
    Evolves size Γ L Γ' (L.put w ⟨n.place, d⟩) where
  gone {i b} hi hg := by
    refine ⟨hkeep i _ hi (hg w n hw).symm fun v hv => ?_, fun u m hm => ?_⟩
    · rw [h.blob hw hv] at hi
      cases hi
    · rcases Layout.put_eq_some hm with ⟨-, rfl⟩ | ⟨-, hm⟩
      · exact hg w n hw
      · exact hg u m hm
  old {u m} hm := by
    by_cases hu : u = w
    · subst hu
      rw [hw] at hm
      obtain rfl := Option.some.inj hm
      exact Or.inl ⟨_, Layout.put_same .., rfl⟩
    · exact Or.inl ⟨m, by rwa [Layout.put_of_ne hu], rfl⟩
  new {u m} hm := by
    rcases Layout.put_eq_some hm with ⟨rfl, rfl⟩ | ⟨-, hm⟩
    · exact Or.inl ⟨n, hw, rfl⟩
    · exact Or.inl ⟨m, hm, rfl⟩

theorem deleteData (h : Rep db Γ L) (hw : L w = some n) :
    ∃ Γ', Rep (db.deleteData n.place) Γ' (L.put w ⟨n.place, none⟩) ∧
      Evolves db.size Γ L Γ' (L.put w ⟨n.place, none⟩) := by
  have hkeep : ∀ i r, Γ i = some r → i ≠ n.place → (∀ v, n.data ≠ some (i, v)) →
      Function.update Γ n.place (some (.branch { L.branch w n with dataIndex := 0 })) i =
        some r := by
    intro i r hr hi _
    rwa [Function.update_of_ne hi]
  refine ⟨_, h.put_data hw none (h.holds.deleteData (h.branch hw)) ?_ ?_ ?_ hkeep,
    h.evolves_put_data hw _ none hkeep⟩
  · rw [Function.update_self]
    rfl
  · exact fun _ _ hd => by cases hd
  · exact fun _ _ _ _ _ hd => by cases hd

theorem dataIndex_ne_zero (h : Rep db Γ L) (hw : L w = some n) : n.dataIndex ≠ 0 ↔
    n.data.isSome := by
  unfold Node.dataIndex
  cases hd : n.data with
  | none => simp
  | some d => simpa using h.blob_ne_zero hw (v := d.2) hd

theorem hasData (h : Rep db Γ L) (hw : L w = some n) (c : ℤ) :
    Path.hasData db ⟨n.place, c⟩ = n.value.isSome := by
  have h1 := h.dataIndex_ne_zero hw
  rw [Path.hasData, h.holds.hasData (h.branch hw), Bool.eq_iff_iff, bne_iff_ne, Node.value,
    Option.isSome_map]
  exact h1

theorem database_getData (h : Rep db Γ L) (hw : L w = some n) :
    db.getData n.dataIndex = n.value.getD [] := by
  cases hd : n.data with
  | none => simp [Node.dataIndex, Node.value, hd, Database.getData]
  | some d =>
    have h1 := h.holds.getData (h.blob hw (v := d.2) hd) (h.blob_ne_zero hw hd)
    simpa [Node.dataIndex, Node.value, hd] using h1

theorem getData (h : Rep db Γ L) (hw : L w = some n) (c : ℤ) :
    Path.getData db ⟨n.place, c⟩ = n.value.getD [] := by
  have hb : (L.branch w n).dataIndex = n.dataIndex := rfl
  simp only [Path.getData, h.getBranch hw, hb, h.database_getData hw]
  by_cases h0 : n.dataIndex = 0
  · have hd : n.data = none := by simpa [h0] using (h.dataIndex_ne_zero hw).not
    simp [h0, Node.value, hd]
  · rw [if_pos h0]

/-- A new blob at the end of the file. -/
theorem allocate (h : Rep db Γ L) (hw : L w = some n) (v : BString) :
    ∃ Γ', Rep ((db.allocate v).2.setBranch n.place (L.branch w ⟨n.place, some (db.size, v)⟩)) Γ'
      (L.put w ⟨n.place, some (db.size, v)⟩) ∧ Evolves db.size Γ L Γ'
      (L.put w ⟨n.place, some (db.size, v)⟩) := by
  have hn := h.branch hw
  have hsize : db.size ≠ n.place := fun he => by
    have := h.holds.fresh
    rw [he, hn] at this
    cases this
  have hn' :
      Function.update Γ db.size (some (.blob v)) n.place = some (.branch (L.branch w n)) := by
    rw [Function.update_of_ne hsize.symm, hn]
  have hkeep : ∀ i r, Γ i = some r → i ≠ n.place → (∀ v, n.data ≠ some (i, v)) →
      Function.update (Function.update Γ db.size (some (.blob v))) n.place
        (some (.branch (L.branch w ⟨n.place, some (db.size, v)⟩))) i = some r := by
    intro i r hr hi _
    rw [Function.update_of_ne hi, Function.update_of_ne, hr]
    rintro rfl
    rw [h.holds.fresh] at hr
    cases hr
  refine ⟨_, h.put_data hw _ ((h.holds.allocate v).setBranch hn' _) (Function.update_self ..)
    ?_ ?_ hkeep,
    h.evolves_put_data hw _ _ hkeep⟩
  · rintro i v' ⟨⟩
    rw [Function.update_of_ne hsize, Function.update_self]
  · rintro i v' u k v'' ⟨⟩ hk hi
    have := h.blob hk hi
    rw [h.holds.fresh] at this
    cases this

/-- The blob of a node overwritten by one of the same size. -/
theorem database_setData (h : Rep db Γ L) (hw : L w = some n) {i : ℕ} {v : BString}
    (hi : n.data = some (i, v))
    (v' : BString) (hl : v'.length = v.length) :
    ∃ Γ', Rep (db.setData i v') Γ' (L.put w ⟨n.place, some (i, v')⟩) ∧
      Evolves db.size Γ L Γ' (L.put w ⟨n.place, some (i, v')⟩) := by
  have hne := h.blob_ne_place hw hw hi
  have hb : L.branch w ⟨n.place, some (i, v')⟩ = L.branch w n := by
    simp [Layout.branch, Node.dataIndex, hi]
  have hkeep : ∀ j r, Γ j = some r → j ≠ n.place → (∀ v, n.data ≠ some (j, v)) →
      Function.update Γ i (some (.blob v')) j = some r := by
    intro j r hr _ hj
    rw [Function.update_of_ne, hr]
    rintro rfl
    exact hj _ hi
  refine ⟨_, h.put_data hw _ (h.holds.setData (h.blob hw hi) hl) ?_ ?_ ?_ hkeep,
    h.evolves_put_data hw _ _ hkeep⟩
  · rw [Function.update_of_ne hne.symm, hb, h.branch hw]
  · rintro j x ⟨⟩
    exact Function.update_self ..
  · rintro j x u k y ⟨⟩ hk hj
    exact h.owner hk hw hj hi

/-- `Path::setData`: the data is replaced, and the answer is whether it is
other data. -/
theorem setData (h : Rep db Γ L) (hw : L w = some n) (c : ℤ) (v : BString) :
    ∃ Γ' i, (Path.setData db ⟨n.place, c⟩ v).1 = decide (n.value ≠ some v) ∧
      Rep (Path.setData db ⟨n.place, c⟩ v).2 Γ' (L.put w ⟨n.place, some (i, v)⟩) ∧
      Evolves db.size Γ L Γ' (L.put w ⟨n.place, some (i, v)⟩) := by
  have hb : (L.branch w n).dataIndex = n.dataIndex := rfl
  simp only [Path.setData, h.getBranch hw, hb, h.database_getData hw]
  cases hd : n.data with
  | none =>
    obtain ⟨Γ', h', he⟩ := h.allocate hw v
    exact ⟨Γ', db.size, by simp [Layout.branch, Node.dataIndex, Node.value, hd],
      by simpa [Layout.branch, Node.dataIndex, hd] using h', he⟩
  | some d =>
    obtain ⟨i, v'⟩ := d
    have hi := h.blob_ne_zero hw hd
    by_cases hl : v'.length = v.length
    · by_cases hv : v' = v
      · subst hv
        refine ⟨Γ, i, by simp [Layout.branch, Node.dataIndex, Node.value, hd, hi], ?_⟩
        rw [← hd, Layout.put_self hw]
        exact ⟨by simpa [Layout.branch, Node.dataIndex, Node.value, hd, hi] using h, .refl⟩
      · obtain ⟨Γ', h', he⟩ := h.database_setData hw hd v hl.symm
        refine ⟨Γ', i, by simp [Layout.branch, Node.dataIndex, Node.value, hd, hi, hl, hv], ?_, he⟩
        simpa [Layout.branch, Node.dataIndex, Node.value, hd, hi, hl, hv] using h'
    · -- the old blob is given up and a new one appended
      obtain ⟨Γ₁, h₁, e₁⟩ := h.deleteData hw
      have hv : v' ≠ v := fun he => hl (he ▸ rfl)
      obtain ⟨Γ', h', e'⟩ := h₁.allocate (Layout.put_same ..) v
      have hsize := h.holds.size_deleteData (h.branch hw)
      have he := e₁.trans h.toWF h₁.toWF h.place_lt hsize.ge e'
      refine ⟨Γ', (db.deleteData n.place).size,
        by simp [Layout.branch, Node.dataIndex, Node.value, hd, hi, hl, hv], ?_⟩
      have hput : (L.put w ⟨n.place, none⟩).put w
        ⟨n.place, some ((db.deleteData n.place).size, v)⟩ =
          L.put w ⟨n.place, some ((db.deleteData n.place).size, v)⟩ := Function.update_idem ..
      rw [branch_put_data hw (m := ⟨n.place, none⟩) rfl, hput] at h'
      rw [hput] at he
      exact ⟨by simpa [Layout.branch, Node.dataIndex, Node.value, hd, hi, hl,
        Path.deleteData] using h', he⟩

/-! ### Going -/

theorem place_put_leaf {u : List Bool} {m : Node} (hu : L u = none) (x : List Bool) :
    Layout.place (L.put u m) x = if x = u then m.place else L.place x := by
  by_cases hx : x = u
  · subst hx
    simp [Layout.place]
  · rw [if_neg hx, Layout.place, Layout.put_of_ne hx, ← Layout.place]

theorem branch_put_leaf_parent {c : Bool} {m : Node} (hc : L (w ++ [c]) = none) (n : Node) :
    Layout.branch (L.put (w ++ [c]) m) w n = (L.branch w n).setChild c m.place := by
  have hd : w.dropLast ≠ w ++ [c] := fun he => by
    have := congrArg List.length he
    simp only [List.length_dropLast, List.length_append, List.length_singleton] at this
    omega
  cases c <;> simp [Layout.branch, place_put_leaf hc, Branch.setChild, hd]

theorem branch_put_leaf_of_ne (h : L.WF) {c : Bool} {m k : Node} {u : List Bool}
    (hc : L (w ++ [c]) = none)
    (hu : L u = some k) (hne : u ≠ w) : Layout.branch (L.put (w ++ [c]) m) u k = L.branch u k := by
  have hd : u.dropLast ≠ w ++ [c] := fun he => by
    obtain ⟨j, hj⟩ := h.of_isPrefix hu (he ▸ List.dropLast_prefix u)
    rw [hc] at hj
    cases hj
  simp [Layout.branch, place_put_leaf hc, hd, hne]

theorem branch_put_leaf_new (h : L.WF) {c : Bool} {m : Node} (hw : L w = some n)
    (hc : L (w ++ [c]) = none)
    (hm : m.data = none) : Layout.branch (L.put (w ++ [c]) m) (w ++ [c]) m = .new n.place := by
  have hnone : ∀ b, L (w ++ [c, b]) = none := fun b => by
    by_contra hne
    obtain ⟨j, hj⟩ := Option.ne_none_iff_exists'.mp hne
    obtain ⟨i, hi⟩ := h.of_isPrefix hj (u := w ++ [c]) ⟨[b], by simp⟩
    rw [hc] at hi
    cases hi
  simp [Layout.branch, place_put_leaf hc, Node.dataIndex, hm, Branch.new, Layout.place_of hw,
    Layout.place_of_none (hnone _)]

/-- No record of the layout stands at the end of the file. -/
theorem ne_size (h : Rep db Γ L) {i : ℕ} {r : Record} (hi : Γ i = some r) : i ≠ db.size := by
  have := h.holds.lt_size hi
  omega

/-- A new leaf past the end of the file. -/
theorem evolves_leaf (h : Rep db Γ L) (hw : L w = some n) {c : Bool} (hc : L (w ++ [c]) = none)
    {r r' : Record} :
    Evolves db.size Γ L (Function.update (Function.update Γ db.size (some r)) n.place (some r'))
      (L.put (w ++ [c]) ⟨db.size, none⟩) where
  gone {i b} hi hg := by
    have hne := h.ne_size hi
    rw [Function.update_of_ne (hg w n hw).symm, Function.update_of_ne hne, hi]
    refine ⟨rfl, fun u m hm => ?_⟩
    rcases Layout.put_eq_some hm with ⟨-, rfl⟩ | ⟨-, hm⟩
    · exact hne.symm
    · exact hg u m hm
  old {u m} hm := by
    refine Or.inl ⟨m, ?_, rfl⟩
    rwa [Layout.put_of_ne]
    rintro rfl
    rw [hc] at hm
    cases hm
  new {u m} hm := by
    rcases Layout.put_eq_some hm with ⟨-, rfl⟩ | ⟨-, hm⟩
    · exact Or.inr le_rfl
    · exact Or.inl ⟨m, hm, rfl⟩

/-- A new branch at the end of the file, not yet linked. -/
theorem append (h : Rep db Γ L) (parent : ℕ) :
    Rep (db.getNextIndex parent).2 (Function.update Γ db.size (some (.branch (.new parent))))
      L where
  toWF := h.toWF
  holds := h.holds.getNextIndex parent
  branch hk := by rw [Function.update_of_ne (h.ne_size (h.branch hk)), h.branch hk]
  blob hk hi := by rw [Function.update_of_ne (h.ne_size (h.blob hk hi)), h.blob hk hi]

/-- A new branch that is not yet linked is linked from its parent. -/
theorem link (h : Rep db Γ L) (hw : L w = some n) {c : Bool} (hc : L (w ++ [c]) = none) {new : ℕ}
    (hnew : Γ new = some (.branch (.new n.place))) (hlt : n.place < new)
    (hfree : ∀ u k, L u = some k → k.place ≠ new) :
    Rep (db.setBranch n.place ((L.branch w n).setChild c new))
      (Function.update Γ n.place (some (.branch ((L.branch w n).setChild c new))))
      (L.put (w ++ [c]) ⟨new, none⟩) where
  toWF := h.toWF.put_leaf hw hc hlt rfl hfree
  holds := h.holds.setBranch (h.branch hw) _
  branch {u k} hk := by
    rcases Layout.put_eq_some hk with ⟨rfl, rfl⟩ | ⟨-, hk⟩
    · rw [branch_put_leaf_new h.toWF hw hc rfl, Function.update_of_ne hlt.ne', hnew]
    · by_cases hu : u = w
      · obtain rfl : k = n := Option.some.inj (hk.symm.trans (hu ▸ hw))
        rw [hu, branch_put_leaf_parent hc, Function.update_self]
      · rw [branch_put_leaf_of_ne h.toWF hc hk hu, Function.update_of_ne fun he =>
          hu (h.inj hk hw he), h.branch hk]
  blob {u k i v} hk hi := by
    rcases Layout.put_eq_some hk with ⟨rfl, rfl⟩ | ⟨-, hk⟩
    · cases hi
    · rw [Function.update_of_ne (h.blob_ne_place hw hk hi), h.blob hk hi]

/-- Going to a child finds it or makes it. -/
theorem child (h : Rep db Γ L) (hw : L w = some n) (c : Bool) :
    ∃ Γ' m, m.place = (Path.child db n.place c).1 ∧ Rep (Path.child db n.place c).2 Γ'
      (L.put (w ++ [c]) m) ∧
      (L (w ++ [c]) = some m ∨ L (w ++ [c]) = none ∧ m.data = none) ∧
        db.size ≤ (Path.child db n.place c).2.size ∧
      Evolves db.size Γ L Γ' (L.put (w ++ [c]) m) := by
  simp only [Path.child, h.getBranch hw, Layout.branch_child]
  cases hc : L (w ++ [c]) with
  | some m =>
    have hp := h.place_pos (by simp) hc
    rw [Layout.place_of hc, if_neg (by omega)]
    refine ⟨Γ, m, rfl, ?_, Or.inl rfl, le_rfl, ?_⟩
    · rwa [Layout.put_self hc]
    · rw [Layout.put_self hc]
      exact .refl
  | none =>
    rw [Layout.place_of_none hc, if_pos rfl, if_pos rfl]
    have hrep := (h.append n.place).link hw hc (Function.update_self ..)
      (h.place_lt hw) fun u k hk => h.ne_size (h.branch hk)
    refine ⟨_, ⟨db.size, none⟩, rfl, hrep, Or.inr ⟨rfl, rfl⟩, ?_, ?_⟩
    · have hn : Function.update Γ db.size (some (.branch (.new n.place))) n.place =
        some (.branch (L.branch w n)) := by
        rw [Function.update_of_ne (h.place_lt hw).ne, h.branch hw]
      rw [(h.append n.place).holds.size_setBranch hn]
      exact le_max_left _ _
    · exact h.evolves_leaf hw hc

/-! ### Deleting -/

theorem unlink_child {b : Branch} {p : ℕ} {c : Bool} (hp : b.child c = p) (ho : b.child (!c) ≠ p) :
    b.unlink p = b.setChild c 0 := by
  cases c with
  | false =>
    have hp : b.left = p := hp
    simp [Branch.unlink, Branch.setChild, hp]
  | true =>
    have hp : b.right = p := hp
    have ho : b.left ≠ p := ho
    simp [Branch.unlink, Branch.setChild, hp, ho.symm]

theorem setChild_self {b : Branch} {p : ℕ} {c : Bool} (hp : b.child c = p) :
    b.setChild c p = b := by
  subst hp
  cases c <;> rfl

/-- The records at and below `w` are as the layout says. -/
def Below (Γ : Heap) (L : Layout) (w : List Bool) : Prop :=
  ∀ u n, w <+: u → L u = some n → Γ n.place = some (.branch (L.branch u n))

/-- The branches at and below `w` have the links to their parents only. -/
def CutOff (Γ : Heap) (L : Layout) (w : List Bool) : Prop :=
  ∀ u n, w <+: u → L u = some n → Γ n.place = some (.branch (.new (L.place u.dropLast)))

/-- The heaps agree outside the branches at and below `w` and the parent of `w`. -/
def Outside (L : Layout) (w : List Bool) (Γ Γ' : Heap) : Prop :=
  ∀ i, i ≠ L.place w.dropLast → (∀ u n, w <+: u → L u = some n → n.place ≠ i) → Γ' i = Γ i

theorem Below.congr {Γ Γ' : Heap} (hb : Below Γ L w)
    (hk : ∀ u n, w <+: u → L u = some n → Γ' n.place = Γ n.place) : Below Γ' L w :=
  fun u n hu hn => (hk u n hu hn).trans (hb u n hu hn)

theorem Below.child {Γ Γ' : Heap} (hb : Below Γ L w) (c : Bool)
    (hk : ∀ u n, w ++ [c] <+: u → L u = some n → Γ' n.place = Γ n.place) : Below Γ' L (w ++ [c]) :=
  Below.congr (fun u n hu hn => hb u n ((List.prefix_append w [c]).trans hu) hn) hk

/-- A layout pruned where the branches are cut off. -/
theorem evolves_prune (hL : L.WF) {size : ℕ} {Γ' : Heap}
    (hgone : ∀ {i b}, Γ i = some (.branch b) → L.Gone i → Γ' i = some (.branch b))
    (hcut : CutOff Γ' L w) :
    Evolves size Γ L Γ' (L.prune w) where
  gone hi hg := ⟨hgone hi hg, fun u m hm => hg u m (Layout.prune_eq_some.mp hm).2⟩
  old {u n} hn := by
    by_cases hu : w <+: u
    · refine Or.inr ⟨fun x m hm he => ?_, hcut u n hu hn⟩
      obtain ⟨hx, hm⟩ := Layout.prune_eq_some.mp hm
      exact hx (hL.inj hm hn he ▸ hu)
    · exact Or.inl ⟨n, Layout.prune_eq_some.mpr ⟨hu, hn⟩, rfl⟩
  new hm := Or.inl ⟨_, (Layout.prune_eq_some.mp hm).2, rfl⟩

/-- What `Database::deleteBranch` does with fuel for `fuel` branches on end:
it unlinks the branch from its parent, cuts off all below it and leaves the
other records alone. -/
def Deletes (L : Layout) (fuel : ℕ) : Prop :=
  ∀ (db : Database) (Γ : Heap) (w : List Bool) (n : Node) (b : Branch), db.Holds Γ → w ≠ [] →
    L w = some n →
    Below Γ L w → Γ (L.place w.dropLast) = some (.branch b) → db.size - n.place < fuel →
    ∃ db' Γ', db.deleteBranch fuel n.place = some db' ∧ db'.Holds Γ' ∧ db'.size = db.size ∧
      Γ' (L.place w.dropLast) = some (.branch (b.unlink n.place)) ∧ Outside L w Γ Γ' ∧ CutOff Γ' L w

/-- The child of a branch deleted, if there is one. -/
theorem Deletes.child (hL : L.WF) {fuel : ℕ} (hD : Deletes L fuel) {b : Branch} (c : Bool)
    (hh : db.Holds Γ)
    (hw : L w = some n) (hb : Below Γ L (w ++ [c])) (hn : Γ n.place = some (.branch b))
    (hf : db.size - n.place ≤ fuel) :
    ∃ db' Γ' b', (if L.place (w ++ [c]) ≠ 0 then db.deleteBranch fuel (L.place (w ++ [c]))
      else some db) = some db' ∧
      db'.Holds Γ' ∧ db'.size = db.size ∧ Γ' n.place = some (.branch b') ∧
      (∀ m, L (w ++ [c]) = some m → b' = b.unlink m.place) ∧ (L (w ++ [c]) = none → b' = b) ∧
      Outside L (w ++ [c]) Γ Γ' ∧ CutOff Γ' L (w ++ [c]) := by
  cases hc : L (w ++ [c]) with
  | none =>
    rw [Layout.place_of_none hc, if_neg (by simp)]
    refine ⟨db, Γ, b, rfl, hh, rfl, hn, by simp, fun _ => rfl, fun _ _ _ => rfl,
      fun u m hu hm => ?_⟩
    obtain ⟨k, hk⟩ := hL.of_isPrefix hm hu
    rw [hc] at hk
    cases hk
  | some m =>
    have hp := hL.place_pos (by simp) hc
    obtain ⟨k, hk, hlt⟩ := hL.closed hc
    obtain rfl : n = k := Option.some.inj (hw.symm.trans hk)
    have hq : L.place (w ++ [c]).dropLast = n.place := by
      rw [List.dropLast_concat, Layout.place_of hw]
    have hm := hh.lt_size (hb _ m List.prefix_rfl hc)
    obtain ⟨db', Γ', h1, h2, h3, h4, h5, h6⟩ :=
      hD _ _ _ _ _ hh (by simp) hc hb (hq.symm ▸ hn) (by omega)
    rw [Layout.place_of hc, if_pos (by omega)]
    exact ⟨db', Γ', _, h1, h2, h3, hq ▸ h4, by simp, by simp, h5, h6⟩

theorem place_ne_of_below (hL : L.WF) {u x : List Bool} {m k : Node} (hu : L u = some m)
    (hx : L x = some k)
    (hlen : x.length < u.length) : m.place ≠ k.place := fun he => by
  obtain rfl := hL.inj hu hx he
  omega

/-- The links of a branch after both its children have been deleted. -/
theorem cut_children (hL : L.WF) {b b₁ b₂ : Branch} (hl : b.left = L.place (w ++ [false]))
    (hr : b.right = L.place (w ++ [true]))
    (hsome₁ : ∀ m, L (w ++ [false]) = some m → b₁ = b.unlink m.place)
    (hnone₁ : L (w ++ [false]) = none → b₁ = b)
    (hsome₂ : ∀ m, L (w ++ [true]) = some m → b₂ = b₁.unlink m.place)
    (hnone₂ : L (w ++ [true]) = none → b₂ = b₁) : b₂ = { b with left := 0, right := 0 } := by
  have h₁ : b₁ = { b with left := 0 } := by
    cases hm : L (w ++ [false]) with
    | none => rw [hnone₁ hm, show (0 : ℕ) = b.left from (hl.trans (Layout.place_of_none hm)).symm]
    | some m =>
      rw [hsome₁ m hm, Branch.unlink, if_pos]
      rw [hl, Layout.place_of hm]
  cases hm : L (w ++ [true]) with
  | none =>
    rw [hnone₂ hm, h₁, show b.right = 0 from hr.trans (Layout.place_of_none hm)]
  | some m =>
    have h0 := hL.place_pos (by simp) hm
    have hright : m.place = b.right := by rw [hr, Layout.place_of hm]
    rw [hsome₂ m hm, h₁]
    simp [Branch.unlink, hright.symm, h0.ne']

theorem prefix_child {u x : List Bool} (h : x <+: u) (hne : u ≠ x) : ∃ a, x ++ [a] <+: u := by
  obtain ⟨t, rfl⟩ := h
  cases t with
  | nil => simp at hne
  | cons a t => exact ⟨a, t, by simp⟩

theorem deletes (hL : L.WF) : ∀ fuel, Deletes L fuel
  | 0 => fun _ _ _ _ _ _ _ _ _ _ hf => by omega
  | fuel + 1 => by
    intro db Γ w n b hh hw hn hb hp hf
    obtain ⟨v, c, rfl⟩ : ∃ v c, w = v ++ [c] := by
      obtain ⟨v, c, h⟩ := (List.eq_nil_or_concat w).resolve_left hw
      exact ⟨v, c, by rw [h, List.concat_eq_append]⟩
    obtain ⟨k, hk, hlt⟩ := hL.closed hn
    have hq : L.place (v ++ [c]).dropLast = k.place := by
      rw [List.dropLast_concat, Layout.place_of hk]
    rw [hq] at hp ⊢
    have hbn := hb _ n List.prefix_rfl hn
    have hkn : k.place ≠ n.place := by omega
    -- the data of the branch is given up, then the link to it
    set B : Branch := { L.branch (v ++ [c]) n with dataIndex := 0 } with hB
    have hparent : B.parent = k.place := hq
    have h1 := hh.deleteData hbn
    have h1k : Function.update Γ n.place (some (.branch B)) k.place = some (.branch b) := by
      rw [Function.update_of_ne hkn, hp]
    have h2 := h1.setBranch h1k (b.unlink n.place)
    have hs2 := (h1.size_setBranch h1k (b.unlink n.place)).trans (hh.size_deleteData hbn)
    set Γ₂ := Function.update (Function.update Γ n.place (some (.branch B))) k.place
      (some (.branch (b.unlink n.place))) with hΓ₂
    have h2n : Γ₂ n.place = some (.branch B) := by
      rw [hΓ₂, Function.update_of_ne hkn.symm, Function.update_self]
    have h2o : ∀ i, i ≠ k.place → i ≠ n.place → Γ₂ i = Γ i := fun i hi hj => by
      rw [hΓ₂, Function.update_of_ne hi, Function.update_of_ne hj]
    -- then the two children
    have hbelow : ∀ {u m}, v ++ [c] <+: u → u ≠ v ++ [c] → L u = some m → m.place ≠ k.place ∧
      m.place ≠ n.place := by
      intro u m hu hne hm
      have hlen := lt_of_le_of_ne hu.length_le fun he => hne (hu.eq_of_length he).symm
      refine ⟨place_ne_of_below hL hm hk ?_, place_ne_of_below hL hm hn hlen⟩
      simp only [List.length_append, List.length_singleton] at hlen
      omega
    have hb2 : ∀ a, Below Γ₂ L (v ++ [c] ++ [a]) := fun a => hb.child a fun u m hu hm => by
      have hx := hbelow ((List.prefix_append _ _).trans hu)
        (by rintro rfl; simpa using hu.length_le) hm
      exact h2o _ hx.1 hx.2
    obtain ⟨db₃, Γ₃, B₃, e3, h3, hs3, h3n, hsome3, hnone3, o3, c3⟩ :=
      (deletes hL fuel).child hL false h2 hn (hb2 false) h2n
      (by omega)
    have hleft : ∀ u m, v ++ [c] ++ [true] <+: u → L u = some m → Γ₃ m.place = Γ₂ m.place := by
      intro u m hu hm
      have hx := hbelow ((List.prefix_append _ _).trans hu)
        (by rintro rfl; simpa using hu.length_le) hm
      refine o3 _ ?_ fun x j hx' hj he => ?_
      · rw [List.dropLast_concat, Layout.place_of hn]
        exact hx.2
      · obtain rfl := hL.inj hj hm he
        exact not_prefix_both hx' hu
    obtain ⟨db₄, Γ₄, B₄, e4, h4, hs4, h4n, hsome4, hnone4, o4, c4⟩ :=
      (deletes hL fuel).child hL true h3 hn
      ((hb2 true).congr hleft) h3n (by omega)
    have hout : ∀ i, i ≠ n.place → (∀ u m, v ++ [c] <+: u → L u = some m → m.place ≠ i) →
      Γ₄ i = Γ₂ i := by
      intro i hi hu
      rw [o4 i, o3 i]
      · rwa [List.dropLast_concat, Layout.place_of hn, ne_comm, ne_comm]
      · exact fun u m hx hm => hu u m ((List.prefix_append _ _).trans hx) hm
      · rwa [List.dropLast_concat, Layout.place_of hn]
      · exact fun u m hx hm => hu u m ((List.prefix_append _ _).trans hx) hm
    refine ⟨db₄, Γ₄, ?_, h4, by omega, ?_, ?_, ?_⟩
    · have e1 : (db.deleteData n.place).getBranch n.place = B :=
        h1.getBranch (Function.update_self ..)
      have e2 := h1.getBranch h1k
      have hl : B.left = L.place (v ++ [c] ++ [false]) := rfl
      have hr : B.right = L.place (v ++ [c] ++ [true]) := rfl
      have h0 : n.place ≠ 0 := by omega
      rw [Database.deleteBranch]
      simp only [e1]
      rw [if_pos h0, hparent, e2, hl, hr, e3]
      exact e4
    · rw [hout _ hkn, hΓ₂, Function.update_self]
      intro u m hu hm he
      have hlen := hu.length_le
      simp only [List.length_append, List.length_singleton] at hlen
      exact place_ne_of_below hL hm hk (by omega) he
    · intro i hi hu
      rw [hq] at hi
      have hin : i ≠ n.place := fun he => hu _ n List.prefix_rfl hn he.symm
      rw [hout i hin hu, h2o i hi hin]
    · intro u m hu hm
      by_cases hne : u = v ++ [c]
      · subst hne
        obtain rfl := Option.some.inj (hm.symm.trans hn)
        rw [h4n, cut_children hL (b := B) rfl rfl hsome3 hnone3 hsome4 hnone4]
        rfl
      · rcases prefix_child hu hne with ⟨a, ha⟩
        cases a with
        | true => exact c4 u m ha hm
        | false =>
          rw [o4, c3 u m ha hm]
          · rw [List.dropLast_concat, Layout.place_of hn]
            exact (hbelow hu hne hm).2
          · intro x j hx hj he
            obtain rfl := hL.inj hj hm he
            exact not_prefix_both ha hx

theorem place_prune_of_not {u x : List Bool} (h : ¬ u <+: x) :
    Layout.place (L.prune u) x = L.place x := by
  rw [Layout.place, Layout.prune_of_not h, ← Layout.place]

theorem not_prefix_dropLast {u x : List Bool} (h : ¬ u <+: x) : ¬ u <+: x.dropLast :=
  fun hp => h (hp.trans (List.dropLast_prefix x))

theorem branch_prune_of_ne {c : Bool} {u : List Bool} (hu : ¬ w ++ [c] <+: u) (hne : u ≠ w)
    (k : Node) :
    Layout.branch (L.prune (w ++ [c])) u k = L.branch u k := by
  have ha : ∀ a, ¬ w ++ [c] <+: u ++ [a] := fun a hp => by
    rcases List.prefix_concat_iff.mp hp with he | hp
    · exact hne (List.append_inj' he rfl).1.symm
    · exact hu hp
  simp only [Layout.branch, place_prune_of_not (ha _), place_prune_of_not (not_prefix_dropLast hu)]

theorem branch_prune_parent (c : Bool) (n : Node) :
    Layout.branch (L.prune (w ++ [c])) w n = (L.branch w n).setChild c 0 := by
  have hself : Layout.place (L.prune (w ++ [c])) (w ++ [c]) = 0 :=
    Layout.place_of_none (Layout.prune_of_isPrefix List.prefix_rfl)
  have hd : ¬ w ++ [c] <+: w.dropLast := not_prefix_dropLast not_concat_isPrefix
  have ho : ¬ w ++ [c] <+: w ++ [!c] := not_concat_prefix_concat
  cases c with
  | false =>
    simp only [Bool.not_false] at ho
    simp [Layout.branch, Branch.setChild, hself, place_prune_of_not ho, place_prune_of_not hd]
  | true =>
    simp only [Bool.not_true] at ho
    simp [Layout.branch, Branch.setChild, hself, place_prune_of_not ho, place_prune_of_not hd]

theorem unlink_branch (h : L.WF) {c : Bool} {m : Node} (hc : L (w ++ [c]) = some m) (n : Node) :
    (L.branch w n).unlink m.place = (L.branch w n).setChild c 0 := by
  refine unlink_child (by rw [Layout.branch_child, Layout.place_of hc]) ?_
  rw [Layout.branch_child]
  cases ho : L (w ++ [!c]) with
  | none =>
    rw [Layout.place_of_none ho]
    exact (h.place_pos (by simp) hc).ne
  | some k =>
    rw [Layout.place_of ho]
    intro he
    simpa using h.inj ho hc he

/-- Deleting a child prunes the layout. -/
theorem deleteChild (h : Rep db Γ L) (hw : L w = some n) (c : Bool) (fuel : ℕ)
    (hf : db.size - n.place ≤ fuel) :
    ∃ db' Γ', (if L.place (w ++ [c]) ≠ 0 then db.deleteBranch fuel (L.place (w ++ [c]))
      else some db) = some db' ∧
      Rep db' Γ' (L.prune (w ++ [c])) ∧ db'.size = db.size ∧
        Evolves db.size Γ L Γ' (L.prune (w ++ [c])) := by
  obtain ⟨db', Γ', b', he, hh, hs, hn, hsome, hnone, ho, hcut⟩ :=
    (deletes h.toWF fuel).child h.toWF c h.holds hw
    (fun u m _ hm => h.branch hm) (h.branch hw) hf
  have hout : ∀ i, i ≠ n.place → (∀ u m, w ++ [c] <+: u → L u = some m → m.place ≠ i) →
    Γ' i = Γ i := by
    intro i hi
    refine ho i ?_
    rwa [List.dropLast_concat, Layout.place_of hw]
  refine ⟨db', Γ', he, ⟨h.toWF.prune (by simp), hh, ?_, ?_⟩, hs, evolves_prune h.toWF
    (fun {i b} hi hg => ?_) hcut⟩
  · intro u k hk
    obtain ⟨hu, hk⟩ := Layout.prune_eq_some.mp hk
    by_cases huw : u = w
    · obtain rfl : k = n := Option.some.inj (hk.symm.trans (huw ▸ hw))
      rw [hn, huw, branch_prune_parent]
      cases hc : L (w ++ [c]) with
      | some m => rw [hsome m hc, unlink_branch h.toWF hc]
      | none =>
        have h0 : (L.branch w k).child c = 0 := by rw [Layout.branch_child, Layout.place_of_none hc]
        rw [hnone hc, setChild_self h0]
    · rw [branch_prune_of_ne hu huw, hout _ (fun he => huw (h.inj hk hw he)), h.branch hk]
      exact fun x m hx hm he => hu (h.inj hm hk he ▸ hx)
  · intro u k i v hk hi
    obtain ⟨-, hk⟩ := Layout.prune_eq_some.mp hk
    rw [hout _ (h.blob_ne_place hw hk hi), h.blob hk hi]
    exact fun x m _ hm => (h.blob_ne_place hm hk hi).symm
  · rw [hout i (hg w n hw).symm fun u m _ hm => hg u m hm, hi]

end Rep

end BeeFish
