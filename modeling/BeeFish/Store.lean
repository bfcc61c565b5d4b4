/-
# The store refines a finite map

The `Store` is what the trie is for: a map from sequences of keys to optional
data, in which a path is present as soon as it was walked. `Op.apply` is what
each operation of a path does to it, with its answer; `Op.run` is the same
operation on the file, walking its path afresh from the root. `Refines L M`
ties a layout to a store: the branch at the end of each path of keys is there
as the store says, with the data it says, and every branch is on the way to
some path.

Each operation keeps the relation and gives the answer of the store
(`run_refines`, and for a whole run `store_refines_map`); the records of the
paths it does not name stay where they are, with their data.

Key definitions: `Op`, `Op.run`, `Store`, `Op.apply`, `Refines`, `Separated`,
`Undisturbed`.
-/
import BeeFish.Walk
import Mathlib.Data.List.Nodup

namespace BeeFish

open BitCode

/-! ### Operations -/

inductive Action where
  | setData (value : BString)
  | deleteData
  | clear
  | clearKey (key : Key)
  | contains (key : Key)
  | hasData
  | getData

/-- An operation on the path `path[k1]…[kn]`. -/
structure Op where
  path : List Key
  action : Action

inductive Answer where
  | done
  | bool (value : Bool)
  | data (value : BString)
  deriving DecidableEq

/-- The action on the path that was walked to. -/
def Action.run (db : Database) (path : Path) : Action → Option (Answer × Database)
  | setData value => some (.bool (Path.setData db path value).1, (Path.setData db path value).2)
  | deleteData => some (.done, Path.deleteData db path)
  | clear => (Path.clear db path).map fun db => (.done, db)
  | clearKey key => (Path.clearKey db path key).map fun db => (.done, db)
  | contains key => some (.bool (Path.contains db path key), db)
  | hasData => some (.bool (Path.hasData db path), db)
  | getData => some (.data (Path.getData db path), db)

/-- The operation on the file. -/
def Op.run (db : Database) (op : Op) : Option (Answer × Database) :=
  let (path, db) := Path.getAll db .root op.path
  op.action.run db path

def runAll (db : Database) : List Op → Option (List Answer × Database)
  | [] => some ([], db)
  | op :: ops => do
    let (answer, db) ← op.run db
    let (answers, db) ← runAll db ops
    return (answer :: answers, db)

/-! ### The map -/

/-- The paths that are present, with their data if they have any. -/
abbrev Store := List Key → Option (Option BString)

namespace Store

/-- The empty store: only the root is there. -/
def empty : Store := fun ks => if ks = [] then some none else none

/-- The paths on the way to `path` are there. -/
def visit (M : Store) (path : List Key) : Store :=
  fun ks => if ks <+: path then some (M ks).join else M ks

/-- The data of one path. -/
def put (M : Store) (path : List Key) (data : Option BString) : Store :=
  Function.update M path (some data)

/-- Without `path` and all below it. -/
def remove (M : Store) (path : List Key) : Store := fun ks => if path <+: ks then none else M ks

/-- Without all below `path`. -/
def removeBelow (M : Store) (path : List Key) : Store :=
  fun ks => if path <+: ks ∧ ks ≠ path then none else M ks

end Store

/-- The action on the map. -/
def Action.apply (M : Store) (path : List Key) : Action → Answer × Store
  | setData value => (.bool (decide (M path ≠ some (some value))), M.put path (some value))
  | deleteData => (.done, M.put path none)
  | clear => (.done, (M.put path none).removeBelow path)
  | clearKey key => (.done, M.remove (path ++ [key]))
  | contains key => (.bool (M (path ++ [key])).isSome, M)
  | hasData => (.bool (M path).join.isSome, M)
  | getData => (.data ((M path).join.getD []), M)

/-- The operation on the map. -/
def Op.apply (M : Store) (op : Op) : Answer × Store := op.action.apply (M.visit op.path) op.path

def applyAll (M : Store) : List Op → List Answer × Store
  | [] => ([], M)
  | op :: ops =>
    let (answer, M) := op.apply M
    let (answers, M) := applyAll M ops
    (answer :: answers, M)

/-! ### Where records stand -/

/-- The index that the links lead to along the bits. -/
def Database.locate (db : Database) : ℕ → List Bool → Option ℕ
  | index, [] => some index
  | index, bit :: bits =>
    let child := (db.getBranch index).child bit
    if child = 0 then none else locate db child bits

/-- The index of the path of keys. -/
def Database.indexOf (db : Database) (ks : List Key) : Option ℕ := db.locate 0 (bitsOf ks)

/-- The intervals of the file that belong to a branch: its record, and the
blob of its data. -/
def Database.extents (db : Database) (index : ℕ) : List (ℕ × ℕ) :=
  let dataIndex := (db.getBranch index).dataIndex
  (index, sizeofBranch) ::
    if dataIndex ≠ 0 then [(dataIndex, sizeofIndex + (db.getData dataIndex).length)] else []

/-- The records and blobs of two paths do not overlap. -/
def Separated (db : Database) : Prop :=
  ∀ js ks p q, js ≠ ks → db.indexOf js = some p → db.indexOf ks = some q →
    ∀ e ∈ db.extents p, ∀ f ∈ db.extents q, e.1 + e.2 ≤ f.1 ∨ f.1 + f.2 ≤ e.1

/-- A branch that is there in both files has its record in the same place
with the same parent and data; its links may be made or cut but lead nowhere
else. -/
structure Undisturbed (db db' : Database) (p q : ℕ) : Prop where
  index : q = p
  parent : (db'.getBranch q).parent = (db.getBranch p).parent
  dataIndex : (db'.getBranch q).dataIndex = (db.getBranch p).dataIndex
  data : db'.getData (db'.getBranch q).dataIndex = db.getData (db.getBranch p).dataIndex
  link : ∀ c, (db'.getBranch q).child c = (db.getBranch p).child c ∨ (db.getBranch p).child c = 0 ∨
    (db'.getBranch q).child c = 0

/-! ### Bits of paths -/

theorem bitsOf_isPrefix {js ks : List Key} : bitsOf js <+: bitsOf ks ↔ js <+: ks := by
  have hinj : Function.Injective Key.bits := fun a b h => Key.ext h
  constructor
  · intro h
    rw [← List.prefix_map_iff_of_injective hinj]
    refine prefix_of_flatten_isPrefix _ _ ?_ ?_ h
    · simp only [List.mem_map]
      rintro _ ⟨k, -, rfl⟩
      exact k.isCode
    · simp only [List.mem_map]
      rintro _ ⟨k, -, rfl⟩
      exact k.isCode
  · exact fun h => flatten_prefix_flatten (h.map _)

theorem bitsOf_injective {js ks : List Key} (h : bitsOf js = bitsOf ks) : js = ks :=
  (bitsOf_isPrefix.mp (h ▸ List.prefix_rfl)).eq_of_length_le
    (bitsOf_isPrefix.mp (h ▸ List.prefix_rfl)).length_le

@[simp] theorem bitsOf_nil : bitsOf [] = [] := rfl

theorem bitsOf_append (js ks : List Key) : bitsOf (js ++ ks) = bitsOf js ++ bitsOf ks := by
  simp [bitsOf]

theorem bitsOf_singleton (k : Key) : bitsOf [k] = k.bits := by simp [bitsOf]

theorem bitsOf_concat (ks : List Key) (k : Key) : bitsOf (ks ++ [k]) = bitsOf ks ++ k.bits := by
  rw [bitsOf_append, bitsOf_singleton]

/-- Below a path every way starts with a one. -/
theorem bitsOf_below {js ks : List Key} (h : js <+: ks) (hne : ks ≠ js) :
    bitsOf js ++ [true] <+: bitsOf ks := by
  obtain ⟨t, rfl⟩ := h
  cases t with
  | nil => simp at hne
  | cons k t =>
    obtain ⟨v, hv⟩ := k.isCode.exists_cons
    exact ⟨v ++ bitsOf t, by simp [bitsOf, hv]⟩

/-! ### The relation -/

/-- The layout holds the store. -/
structure Refines (L : Layout) (M : Store) : Prop where
  value : ∀ ks, (L (bitsOf ks)).map Node.value = M ks
  present : ∀ {u n}, L u = some n → ∃ ks, (M ks).isSome ∧ u <+: bitsOf ks

namespace Refines

variable {L L' : Layout} {M : Store}

theorem isSome (h : Refines L M) (ks : List Key) : (M ks).isSome = (L (bitsOf ks)).isSome := by
  rw [← h.value, Option.isSome_map]

theorem of_some (h : Refines L M) {ks : List Key} {n : Node} (hn : L (bitsOf ks) = some n) :
    M ks = some n.value := by rw [← h.value, hn, Option.map_some]

theorem create : Refines (Layout.put (fun _ => none) [] ⟨0, none⟩) Store.empty where
  value ks := by
    by_cases hk : ks = []
    · subst hk
      rfl
    · have hb : bitsOf ks ≠ [] := fun hb => hk (bitsOf_injective (hb.trans bitsOf_nil.symm))
      rw [Layout.put_of_ne hb, Store.empty, if_neg hk]
      rfl
  present hn := by
    rcases Layout.put_eq_some hn with ⟨rfl, -⟩ | ⟨-, hn⟩
    · exact ⟨[], rfl, List.prefix_rfl⟩
    · cases hn

theorem grown (h : Refines L M) (hL' : L'.WF) {path : List Key} (hg : L.Grown L' (bitsOf path)) :
    Refines L' (M.visit path) where
  value ks := by
    unfold Store.visit
    split_ifs with hp
    · obtain ⟨m, hm⟩ := hg.present
      obtain ⟨k, hk⟩ := hL'.of_isPrefix hm (bitsOf_isPrefix.mpr hp)
      rw [hk]
      cases hn : L (bitsOf ks) with
      | some n =>
        rw [hg.old hn] at hk
        obtain rfl := Option.some.inj hk
        rw [h.of_some hn]
        rfl
      | none =>
        have hM := h.value ks
        rw [hn] at hM
        rw [← hM]
        have hd := (hg.new hn hk).1
        simp [Node.value, hd]
    · rw [← h.value]
      cases hn : L (bitsOf ks) with
      | some n => rw [hg.old hn]
      | none =>
        cases hk : L' (bitsOf ks) with
        | none => rfl
        | some k => exact absurd (bitsOf_isPrefix.mp (hg.new hn hk).2) hp
  present {u n} hn := by
    have hvisit : ∀ ks, (M ks).isSome → (M.visit path ks).isSome := fun ks hk => by
      unfold Store.visit
      split_ifs
      · rfl
      · exact hk
    cases hu : L u with
    | some m =>
      obtain ⟨ks, hk, hp⟩ := h.present hu
      exact ⟨ks, hvisit ks hk, hp⟩
    | none => exact ⟨path, by simp [Store.visit], (hg.new hu hn).2⟩

theorem put (h : Refines L M) {path : List Key} {n m : Node} (hw : L (bitsOf path) = some n) :
    Refines (L.put (bitsOf path) m) (M.put path m.value) where
  value ks := by
    by_cases hk : ks = path
    · subst hk
      simp [Store.put]
    · have hb : bitsOf ks ≠ bitsOf path := fun hb => hk (bitsOf_injective hb)
      rw [Layout.put_of_ne hb, h.value, Store.put, Function.update_of_ne hk]
  present {u k} hk := by
    have hput : ∀ ks, (M ks).isSome → (M.put path m.value ks).isSome := fun ks hk => by
      by_cases he : ks = path
      · subst he
        simp [Store.put]
      · rwa [Store.put, Function.update_of_ne he]
    have hold : ∃ j, L u = some j := by
      rcases Layout.put_eq_some hk with ⟨rfl, -⟩ | ⟨-, hk⟩
      · exact ⟨n, hw⟩
      · exact ⟨k, hk⟩
    obtain ⟨j, hj⟩ := hold
    obtain ⟨ks, hk, hp⟩ := h.present hj
    exact ⟨ks, hput ks hk, hp⟩

/-- Nodes `D` taken out of the layout and paths `X` out of the store. -/
theorem restrict (h : Refines L M) {M' : Store} {D : List Bool → Prop} {X : List Key → Prop}
    (hL : ∀ u, D u → L' u = none) (hL' : ∀ u, ¬ D u → L' u = L u)
    (hM : ∀ ks, X ks → M' ks = none) (hM' : ∀ ks, ¬ X ks → M' ks = M ks)
    (hX : ∀ ks, (M ks).isSome → (D (bitsOf ks) ↔ X ks))
    (hu : ∀ u ks, ¬ D u → u <+: bitsOf ks → X ks → ∃ js, (M js).isSome ∧ ¬ X js ∧ u <+: bitsOf js) :
    Refines L' M' where
  value ks := by
    by_cases hk : (M ks).isSome
    · by_cases hx : X ks
      · rw [hM ks hx, hL _ ((hX ks hk).mpr hx)]
        rfl
      · rw [hM' ks hx, hL' _ ((hX ks hk).not.mpr hx), h.value]
    · have hn : M ks = none := by simpa using hk
      have hl : L (bitsOf ks) = none := by simpa [h.isSome] using hk
      have h1 : L' (bitsOf ks) = none := by
        by_cases hd : D (bitsOf ks)
        · exact hL _ hd
        · rw [hL' _ hd, hl]
      have h2 : M' ks = none := by
        by_cases hx : X ks
        · exact hM ks hx
        · rw [hM' ks hx, hn]
      rw [h1, h2]
      rfl
  present {u n} hn := by
    have hd : ¬ D u := fun hd => by
      rw [hL u hd] at hn
      cases hn
    rw [hL' u hd] at hn
    obtain ⟨ks, hk, hp⟩ := h.present hn
    by_cases hx : X ks
    · obtain ⟨js, hj, hxj, hpj⟩ := hu u ks hd hp hx
      exact ⟨js, by rwa [hM' js hxj], hpj⟩
    · exact ⟨ks, by rwa [hM' ks hx], hp⟩

theorem removeBelow (h : Refines L M) {path : List Key} {n : Node} (hw : L (bitsOf path) = some n) :
    Refines (Layout.prune (Layout.prune L (bitsOf path ++ [false])) (bitsOf path ++ [true]))
      (M.removeBelow path) := by
  refine h.restrict (D := fun u => ∃ c, bitsOf path ++ [c] <+: u)
    (X := fun ks => path <+: ks ∧ ks ≠ path)
    ?_ ?_ ?_ ?_ ?_ ?_
  · rintro u ⟨c, hc⟩
    cases c with
    | true => exact Layout.prune_of_isPrefix hc
    | false =>
      unfold Layout.prune
      split_ifs <;> rfl
  · intro u hu
    rw [Layout.prune_of_not (fun hp => hu ⟨_, hp⟩), Layout.prune_of_not (fun hp => hu ⟨_, hp⟩)]
  · exact fun ks hx => if_pos hx
  · exact fun ks hx => if_neg hx
  · intro ks _
    constructor
    · rintro ⟨c, hc⟩
      refine ⟨bitsOf_isPrefix.mp ((List.prefix_append _ _).trans hc), ?_⟩
      rintro rfl
      exact not_concat_isPrefix hc
    · exact fun hx => ⟨true, bitsOf_below hx.1 hx.2⟩
  · intro u ks hd hp hx
    refine ⟨path, by rw [h.isSome, hw]; rfl, fun hx => hx.2 rfl, ?_⟩
    have hb := bitsOf_below hx.1 hx.2
    rcases List.prefix_or_prefix_of_prefix hp hb with hu | hu
    · rcases List.prefix_concat_iff.mp hu with rfl | hu
      · exact absurd ⟨true, List.prefix_rfl⟩ hd
      · exact hu
    · exact absurd ⟨true, hu⟩ hd

/-- What stands below the bit after the last fork on the way of a key is the
key and what is below it. -/
theorem remove (h : Refines L M) (hL : L.WF) {path : List Key} {key : Key} {n : Node}
    {x r : List Bool} {b : Bool}
    (hw : L (bitsOf path) = some n) (hcut : L.Cut (bitsOf path) key.bits x b r) :
    Refines (L.prune (bitsOf path ++ x ++ [b])) (M.remove (path ++ [key])) := by
  have hkey : bitsOf (path ++ [key]) = bitsOf path ++ x ++ [b] ++ r := by
    rw [bitsOf_concat, hcut.eq]
    simp
  have hpath : ¬ path ++ [key] <+: path := fun hp => by
    have := hp.length_le
    rw [List.length_append, List.length_singleton] at this
    omega
  have hbelow : ∀ ks, path ++ [key] <+: ks → bitsOf path ++ x ++ [b] <+: bitsOf ks := fun ks hx =>
    (List.prefix_append _ r).trans (hkey ▸ bitsOf_isPrefix.mpr hx)
  refine h.restrict (D := fun u => bitsOf path ++ x ++ [b] <+: u)
    (X := fun ks => path ++ [key] <+: ks)
    (fun u hd => Layout.prune_of_isPrefix hd) (fun u hd => Layout.prune_of_not hd)
      (fun ks hx => if_pos hx)
    (fun ks hx => if_neg hx) ?_ ?_
  · intro ks hk
    refine ⟨?_, hbelow ks⟩
    rintro ⟨t, ht⟩
    rcases prefix_or_split r t with hrt | htr | ⟨y, c, s, s', hr, hs'⟩
    · apply bitsOf_isPrefix.mp
      rw [hkey, ← ht]
      exact (List.prefix_append_right_inj _).mpr hrt
    · have hks : ks <+: path ++ [key] := by
        apply bitsOf_isPrefix.mp
        rw [hkey, ← ht]
        exact (List.prefix_append_right_inj _).mpr htr
      rcases List.prefix_concat_iff.mp hks with rfl | hks
      · exact List.prefix_rfl
      · have := (bitsOf_isPrefix.mpr hks).length_le
        rw [← ht] at this
        simp only [List.length_append, List.length_singleton] at this
        omega
    · -- the way to `ks` would fork off the way of the key after the last fork
      exfalso
      rw [h.isSome] at hk
      obtain ⟨m, hm⟩ := Option.isSome_iff_exists.mp hk
      obtain ⟨j, hj⟩ := hL.of_isPrefix hm (u := bitsOf path ++ x ++ [b] ++ y ++ [!c])
        ⟨s', by rw [← ht, hs']; simp⟩
      rw [hcut.single y c s hr] at hj
      cases hj
  · intro u ks hd hp hx
    have hu : u <+: bitsOf path ++ x := by
      rcases List.prefix_or_prefix_of_prefix hp (hbelow ks hx) with hu | hu
      · rcases List.prefix_concat_iff.mp hu with rfl | hu
        · exact absurd List.prefix_rfl hd
        · exact hu
      · exact absurd hu hd
    rcases hcut.fork with rfl | hf
    · exact ⟨path, by rw [h.isSome, hw]; rfl, hpath, by simpa using hu⟩
    · obtain ⟨m, hm⟩ := Option.isSome_iff_exists.mp (hf (!b))
      obtain ⟨js, hj, hpj⟩ := h.present hm
      refine ⟨js, hj, fun hx' => ?_, (hu.trans (List.prefix_append _ _)).trans hpj⟩
      have := hbelow js hx'
      cases b
      · exact not_prefix_both this hpj
      · exact not_prefix_both hpj this

end Refines

/-! ### One operation -/

/-- Nodes that both layouts have stand in the same place, and but for `w`
have the same data. -/
def Layout.Keeps (L L' : Layout) (w : List Bool) : Prop :=
  ∀ u n m, L u = some n → L' u = some m → m.place = n.place ∧ (u ≠ w → m = n)

/-- Nothing new in `L'`, and nothing changed but at `w`. -/
def Layout.Shrinks (L L' : Layout) (w : List Bool) : Prop :=
  ∀ u m, L' u = some m → ∃ n, L u = some n ∧ m.place = n.place ∧ (u ≠ w → m = n)

namespace Layout

variable {L L' L'' : Layout} {w : List Bool}

theorem shrinks_refl : Shrinks L L w := fun _ m hm => ⟨m, hm, rfl, fun _ => rfl⟩

theorem Shrinks.prune (h : Shrinks L L' w) (u : List Bool) : Shrinks L (L'.prune u) w :=
  fun x m hm =>
  h x m (prune_eq_some.mp hm).2

theorem put_shrinks {n m : Node} (hw : L w = some n) (hp : m.place = n.place) :
    Shrinks L (L.put w m) w :=
  fun x k hk => by
    rcases put_eq_some hk with ⟨rfl, rfl⟩ | ⟨-, hk⟩
    · exact ⟨n, hw, hp, fun h => absurd rfl h⟩
    · exact ⟨k, hk, rfl, fun _ => rfl⟩

theorem Grown.keeps {u : List Bool} (h : Grown L L' u) (h' : Shrinks L' L'' w) : Keeps L L'' w :=
  fun x n m hn hm => by
  obtain ⟨n', hn', hp⟩ := h' x m hm
  rw [h.old hn] at hn'
  obtain rfl := Option.some.inj hn'
  exact hp

end Layout

/-- An action on the file is the action on the map. -/
theorem Action.run_spec {db : Database} {Γ : Heap} {L : Layout} {M : Store}
    {path : List Key} {n : Node}
    (h : Rep db Γ L) (hM : Refines L M) (hw : L (bitsOf path) = some n) (k : ℤ) (action : Action) :
    ∃ db' Γ' L', action.run db ⟨n.place, k⟩ = some ((action.apply M path).1, db') ∧ Rep db' Γ' L' ∧
      Refines L' (action.apply M path).2 ∧ L.Shrinks L' (bitsOf path) := by
  have hget : M path = some n.value := hM.of_some hw
  cases action with
  | setData v =>
    obtain ⟨Γ', i, ha, h', -⟩ := h.setData hw k v
    refine ⟨_, Γ', _, ?_, h', hM.put hw, Layout.put_shrinks hw rfl⟩
    simp [run, apply, ha, hget]
  | deleteData =>
    obtain ⟨Γ', h', -⟩ := h.deleteData hw
    exact ⟨_, Γ', _, rfl, h', hM.put hw, Layout.put_shrinks hw rfl⟩
  | clear =>
    obtain ⟨db', Γ', he, h', -⟩ := h.clear hw k
    exact ⟨db', Γ', _, by simp [run, apply, he], h', (hM.put hw).removeBelow (Layout.put_same ..),
      ((Layout.put_shrinks hw (m := ⟨n.place, none⟩) rfl).prune _).prune _⟩
  | clearKey key =>
    cases hc : L (bitsOf path ++ key.bits) with
    | some m =>
      obtain ⟨db', Γ', x, b, r, he, hcut, h', -⟩ := h.clearKey hw k key (by rw [hc]; rfl)
      exact ⟨db', Γ', _, by simp [run, apply, he], h', hM.remove h.toWF hw hcut,
        Layout.shrinks_refl.prune _⟩
    | none =>
      refine ⟨db, Γ, L, by simp [run, apply, h.clearKey_of_none hw k hc], h, ?_,
        Layout.shrinks_refl⟩
      have hnone : M.remove (path ++ [key]) = M := by
        funext ks
        unfold Store.remove
        split_ifs with hp
        · rw [← hM.value]
          cases hk : L (bitsOf ks) with
          | none => rfl
          | some m =>
            obtain ⟨j, hj⟩ := h.of_isPrefix hk (bitsOf_concat path key ▸ bitsOf_isPrefix.mpr hp)
            rw [hc] at hj
            cases hj
        · rfl
      simpa only [apply, hnone] using hM
  | contains key =>
    refine ⟨db, Γ, L, ?_, h, hM, Layout.shrinks_refl⟩
    simp [run, apply, h.contains hw, hM.isSome, bitsOf_concat]
  | hasData =>
    refine ⟨db, Γ, L, ?_, h, hM, Layout.shrinks_refl⟩
    simp [run, apply, h.hasData hw, hget]
  | getData =>
    refine ⟨db, Γ, L, ?_, h, hM, Layout.shrinks_refl⟩
    simp [run, apply, h.getData hw, hget]

/-- **An operation on the file is the operation on the map.** -/
theorem Op.run_spec {db : Database} {Γ : Heap} {L : Layout} {M : Store} (h : Rep db Γ L)
    (hM : Refines L M) (op : Op) :
    ∃ db' Γ' L', op.run db = some ((op.apply M).1, db') ∧ Rep db' Γ' L' ∧
      Refines L' (op.apply M).2 ∧
      L.Keeps L' (bitsOf op.path) := by
  obtain ⟨r, hr, h0⟩ := h.root
  obtain ⟨Γ₁, L₁, n, hn, h₁, hw, hg⟩ := h.getAll op.path (p := .root) hr h0.symm
  rw [List.nil_append] at hw hg
  obtain ⟨db', Γ', L', he, h', hM', hs⟩ := op.action.run_spec h₁ (hM.grown h₁.toWF hg) hw
    (Path.getAll db .root op.path).1.count
  exact ⟨db', Γ', L', by rw [hn] at he; exact he, h', hM', hg.keeps hs⟩

/-! ### The records of other paths -/

namespace Rep

variable {db db' : Database} {Γ Γ' : Heap} {L L' : Layout}

theorem locate (h : Rep db Γ L) : ∀ {v w : List Bool} {n : Node}, L w = some n →
    db.locate n.place v = (L (w ++ v)).map Node.place
  | [], w, n, hw => by simp [Database.locate, hw]
  | c :: v, w, n, hw => by
    rw [Database.locate]
    simp only [h.getBranch hw, Layout.branch_child]
    cases hc : L (w ++ [c]) with
    | some m =>
      have h0 := (h.place_pos (by simp) hc).ne'
      rw [Layout.place_of hc, if_neg h0, h.locate hc]
      simp
    | none =>
      rw [Layout.place_of_none hc, if_pos rfl]
      cases hv : L (w ++ c :: v) with
      | none => rfl
      | some m =>
        obtain ⟨j, hj⟩ := h.of_isPrefix hv (u := w ++ [c]) ⟨v, by simp⟩
        rw [hc] at hj
        cases hj

theorem indexOf (h : Rep db Γ L) (ks : List Key) :
    db.indexOf ks = (L (bitsOf ks)).map Node.place := by
  obtain ⟨r, hr, h0⟩ := h.root
  rw [Database.indexOf, ← h0, h.locate hr, List.nil_append]

/-- Each extent of a branch is the interval of a record of the heap. -/
theorem mem_extents (h : Rep db Γ L) {w : List Bool} {n : Node} (hw : L w = some n) {e : ℕ × ℕ}
    (he : e ∈ db.extents n.place) : ∃ r, Γ e.1 = some r ∧ e.2 = (encodeRecord r).length ∧
      (e.1 = n.place ∨ ∃ v, n.data = some (e.1, v)) := by
  have hb : (L.branch w n).dataIndex = n.dataIndex := rfl
  simp only [Database.extents, h.getBranch hw, hb, List.mem_cons] at he
  rcases he with rfl | he
  · exact ⟨_, h.branch hw, by simp [encodeRecord], Or.inl rfl⟩
  · cases hd : n.data with
    | none => simp [Node.dataIndex, hd] at he
    | some d =>
      obtain ⟨i, v⟩ := d
      have hi := h.blob_ne_zero hw hd
      have hg := h.database_getData hw
      simp only [Node.dataIndex, Node.value, hd, Option.map_some, Option.getD_some] at hg he
      rw [if_pos hi, List.mem_singleton, hg] at he
      subst he
      exact ⟨_, h.blob hw hd, by simp [encodeRecord], Or.inr ⟨v, rfl⟩⟩

theorem separated (h : Rep db Γ L) : Separated db := by
  intro js ks p q hne hp hq e he f hf
  rw [h.indexOf, Option.map_eq_some_iff] at hp hq
  obtain ⟨n, hn, rfl⟩ := hp
  obtain ⟨m, hm, rfl⟩ := hq
  obtain ⟨r, hr, hlr, her⟩ := h.mem_extents hn he
  obtain ⟨t, ht, hlt, hft⟩ := h.mem_extents hm hf
  have hbits : bitsOf js ≠ bitsOf ks := fun hb => hne (bitsOf_injective hb)
  have hef : e.1 ≠ f.1 := by
    rcases her with her | ⟨v, hv⟩ <;> rcases hft with hft | ⟨u, hu⟩
    · rw [her, hft]
      exact fun hp => hbits (h.inj hn hm hp)
    · rw [her]
      exact (h.blob_ne_place hn hm hu).symm
    · rw [hft]
      exact h.blob_ne_place hm hn hv
    · exact fun hp => hbits (h.owner hn hm hv (hp ▸ hu))
  rw [hlr, hlt]
  exact h.holds.apart hr ht hef

theorem undisturbed (h : Rep db Γ L) (h' : Rep db' Γ' L') {w : List Bool} (hk : L.Keeps L' w)
    {u : List Bool}
    {n m : Node} (hn : L u = some n) (hm : L' u = some m) (hu : u ≠ w) :
    Undisturbed db db' n.place m.place := by
  have hplace : ∀ {x j k}, L x = some j → L' x = some k → L'.place x = L.place x := fun hj hk' => by
    rw [Layout.place_of hj, Layout.place_of hk', (hk _ _ _ hj hk').1]
  have hmn := (hk u n m hn hm).2 hu
  subst hmn
  refine ⟨rfl, ?_, ?_, ?_, ?_⟩
  · rw [h.getBranch hn, h'.getBranch hm]
    obtain ⟨j, hj⟩ := h.of_isPrefix hn (List.dropLast_prefix u)
    obtain ⟨k, hk'⟩ := h'.of_isPrefix hm (List.dropLast_prefix u)
    exact hplace hj hk'
  · rw [h.getBranch hn, h'.getBranch hm]
    rfl
  · rw [h.getBranch hn, h'.getBranch hm]
    exact (h'.database_getData hm).trans (h.database_getData hn).symm
  · intro c
    rw [h.getBranch hn, h'.getBranch hm, Layout.branch_child, Layout.branch_child]
    cases hj : L (u ++ [c]) with
    | none => exact Or.inr (Or.inl (Layout.place_of_none hj))
    | some j =>
      cases hk' : L' (u ++ [c]) with
      | none => exact Or.inr (Or.inr (Layout.place_of_none hk'))
      | some k => exact Or.inl (hplace hj hk')

end Rep

/-! ### Runs -/

/-- The file holds the store. -/
def Database.Stores (db : Database) (M : Store) : Prop := ∃ Γ L, Rep db Γ L ∧ Refines L M

theorem stores_create : Database.create.Stores Store.empty := ⟨_, _, Rep.create, Refines.create⟩

theorem Database.Stores.run {db : Database} {M : Store} (h : db.Stores M) (op : Op) :
    ∃ db', op.run db = some ((op.apply M).1, db') ∧ db'.Stores (op.apply M).2 ∧
      ∀ js p q, js ≠ op.path → db.indexOf js = some p → db'.indexOf js = some q →
        Undisturbed db db' p q := by
  obtain ⟨Γ, L, h, hM⟩ := h
  obtain ⟨db', Γ', L', he, h', hM', hk⟩ := Op.run_spec h hM op
  refine ⟨db', he, ⟨Γ', L', h', hM'⟩, fun js p q hne hp hq => ?_⟩
  rw [h.indexOf, Option.map_eq_some_iff] at hp
  rw [h'.indexOf, Option.map_eq_some_iff] at hq
  obtain ⟨n, hn, rfl⟩ := hp
  obtain ⟨m, hm, rfl⟩ := hq
  exact h.undisturbed h' hk hn hm fun hb => hne (bitsOf_injective hb)

theorem Database.Stores.runAll : ∀ {db : Database} {M : Store}, db.Stores M → ∀ ops : List Op,
    ∃ db', BeeFish.runAll db ops = some ((applyAll M ops).1, db') ∧ db'.Stores (applyAll M ops).2
  | db, _, h, [] => ⟨db, rfl, h⟩
  | db, M, h, op :: ops => by
    obtain ⟨db₁, he₁, h₁, -⟩ := h.run op
    obtain ⟨db', he, h'⟩ := Database.Stores.runAll h₁ ops
    exact ⟨db', by simp [BeeFish.runAll, applyAll, he₁, he], h'⟩

/-- **The trie refines the finite map.** From an empty file every run of
operations gives the answers of the map. In the file it leaves, the paths of
the map are there and no others, with records that do not overlap; and a
further operation leaves the records and the data of every path it does not
name where and as they were. -/
theorem store_refines_map (ops : List Op) :
    ∃ db, runAll .create ops = some ((applyAll .empty ops).1, db) ∧ Separated db ∧
      (∀ ks, (db.indexOf ks).isSome = ((applyAll .empty ops).2 ks).isSome) ∧
      ∀ op : Op, ∃ db', op.run db = some ((op.apply (applyAll .empty ops).2).1, db') ∧
        ∀ js p q, js ≠ op.path → db.indexOf js = some p → db'.indexOf js = some q →
          Undisturbed db db' p q := by
  obtain ⟨db, he, h⟩ := stores_create.runAll ops
  refine ⟨db, he, ?_, ?_, fun op => ?_⟩
  · obtain ⟨Γ, L, h, -⟩ := h
    exact h.separated
  · obtain ⟨Γ, L, h, hM⟩ := h
    intro ks
    rw [h.indexOf, Option.isSome_map, hM.isSome]
  · obtain ⟨db', he', -, hu⟩ := h.run op
    exact ⟨db', he', hu⟩

end BeeFish
