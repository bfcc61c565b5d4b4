/-
# The file of a JSON database

A `File` is a file of the database with its layout, in which every branch is
on the way to a spot. Its `Content` is where the spots stand and which data
they have. Every operation of a path is a change of the content: walking to a
spot makes it, `setData` puts data, and clearing drops what stands below
(`Path.meets_walk` and the others). What a program does to the file besides,
to the records of branches that are gone, is in how files evolve.

Key definitions: `Content`, `File`, `File.content`, `File.Dead`.
-/
import BeeFish.Spot
import BeeFish.CursorExpr
import BeeFish.Lib.Program

namespace BeeFish

open BitCode

/-- Where the spots of a file stand, and the data that they have. -/
@[ext] structure Content where
  place : Spot → Option ℕ
  data : Spot → Option BString

namespace Content

variable (C : Content)

/-- The content with the spot `s` at `i`. -/
def make (s : Spot) (i : ℕ) : Content := { C with place := Function.update C.place s (some i) }

/-- The content with other data of `s`. -/
def put (s : Spot) (data : Option BString) : Content :=
  { C with data := Function.update C.data s data }

open Classical in
/-- The content without the spots `P`. -/
noncomputable def drop (P : Spot → Prop) : Content where
  place s := if P s then none else C.place s
  data s := if P s then none else C.data s

variable {C}

@[simp] theorem make_place_self (s : Spot) (i : ℕ) : (C.make s i).place s = some i :=
  Function.update_self ..

@[simp] theorem make_place_of_ne {s t : Spot} (h : t ≠ s) (i : ℕ) :
    (C.make s i).place t = C.place t :=
  Function.update_of_ne h ..

@[simp] theorem make_data (s t : Spot) (i : ℕ) : (C.make s i).data t = C.data t := rfl

@[simp] theorem put_place (s t : Spot) (data : Option BString) :
    (C.put s data).place t = C.place t :=
  rfl

@[simp] theorem put_data_self (s : Spot) (data : Option BString) : (C.put s data).data s = data :=
  Function.update_self ..

@[simp] theorem put_data_of_ne {s t : Spot} (h : t ≠ s) (data : Option BString) :
    (C.put s data).data t = C.data t :=
  Function.update_of_ne h ..

theorem drop_place_of {P : Spot → Prop} {s : Spot} (h : P s) : (C.drop P).place s = none := if_pos h

theorem drop_place_of_not {P : Spot → Prop} {s : Spot} (h : ¬ P s) :
    (C.drop P).place s = C.place s :=
  if_neg h

theorem drop_data_of {P : Spot → Prop} {s : Spot} (h : P s) : (C.drop P).data s = none := if_pos h

theorem drop_data_of_not {P : Spot → Prop} {s : Spot} (h : ¬ P s) : (C.drop P).data s = C.data s :=
  if_neg h

/-- What holds of every content of a file. -/
structure Sound (C : Content) (size : ℕ) : Prop where
  root : C.place .root = some 0
  inj : ∀ {s t i}, C.place s = some i → C.place t = some i → s = t
  lt : ∀ {s i}, C.place s = some i → i < size
  closed : ∀ {s t}, s.Under t → C.place s = none → C.place t = none
  data : ∀ {s}, C.place s = none → C.data s = none

end Content

structure File where
  db : Database
  heap : Heap
  layout : Layout
  rep : Rep db heap layout
  refines : Refines layout fun ks => (layout (bitsOf ks)).map Node.value
  spots : ∀ ks, (layout (bitsOf ks)).isSome → ∃ s : Spot, s.keys = ks

namespace File

/-- The node at a spot. -/
def node (F : File) (s : Spot) : Option Node := F.layout (bitsOf s.keys)

def content (F : File) : Content where
  place s := (F.node s).map Node.place
  data s := (F.node s).bind Node.value

/-- At `i` stands a branch that was deleted. -/
def Dead (F : File) (i : ℕ) : Prop :=
  ∃ parent, F.heap i = some (.branch (.new parent)) ∧ F.layout.Gone i

instance : View File Database where
  state := File.db
  Evolves F F' := F.db.size ≤ F'.db.size ∧ Evolves F.db.size F.heap F.layout F'.heap F'.layout
  refl _ := ⟨le_rfl, .refl⟩
  trans {F F' _} h h' :=
    ⟨h.1.trans h'.1, h.2.trans F.rep.toWF F'.rep.toWF (F.rep.place_lt) h.1 h'.2⟩

variable {F F' : File} {s t : Spot} {p : Path} {i : ℕ}

theorem exists_node (h : F.content.place s = some i) : ∃ n, F.node s = some n ∧ n.place = i :=
  Option.map_eq_some_iff.mp h

theorem place_of_node {n : Node} (h : F.node s = some n) : F.content.place s = some n.place := by
  simp [content, h]

theorem node_eq_none : F.node s = none ↔ F.content.place s = none := Option.map_eq_none_iff.symm

theorem sound (F : File) : F.content.Sound F.db.size where
  root := by
    obtain ⟨r, hr, h0⟩ := F.rep.root
    have hnode : F.node .root = some r := hr
    rw [place_of_node hnode, h0]
  inj hs ht := by
    obtain ⟨n, hn, rfl⟩ := exists_node hs
    obtain ⟨m, hm, he⟩ := exists_node ht
    exact Spot.keys_injective (bitsOf_injective (F.rep.inj hn hm he.symm))
  lt hs := by
    obtain ⟨n, hn, rfl⟩ := exists_node hs
    exact F.rep.place_lt hn
  closed {s t} hst hs := by
    rw [← node_eq_none] at hs ⊢
    by_contra ht
    obtain ⟨n, hn⟩ := Option.ne_none_iff_exists'.mp ht
    obtain ⟨m, hm⟩ := F.rep.of_isPrefix hn (bitsOf_isPrefix.mpr hst)
    rw [node, hm] at hs
    cases hs
  data hs := by
    rw [← node_eq_none] at hs
    simp [content, hs]


theorem node_of_place (h : F.content.place s = some p.index) :
    ∃ n, F.layout (bitsOf s.keys) = some n ∧ p.index = n.place := by
  obtain ⟨n, hn, he⟩ := exists_node h
  exact ⟨n, hn, he.symm⟩

end File

theorem Refines.self {L : Layout} {M : Store} (h : Refines L M) : Refines L fun ks =>
    (L (bitsOf ks)).map Node.value := by
  have hM : M = fun ks => (L (bitsOf ks)).map Node.value := funext fun ks => (h.value ks).symm
  rwa [← hM]

theorem Spot.bitsOf_keys_up {s t : Spot} {key : Key} (ht : t.up = some (s, key)) :
    bitsOf t.keys = bitsOf s.keys ++ key.bits := by rw [keys_up ht, bitsOf_concat]

/-- A content of the spots of a layout with a store. -/
theorem File.content_eq {db : Database} {Γ : Heap} {L : Layout} {C : Content} {hrep : Rep db Γ L}
    {hrefines : Refines L fun ks => (L (bitsOf ks)).map Node.value}
    {hspots : ∀ ks, (L (bitsOf ks)).isSome → ∃ s : Spot, s.keys = ks}
    (hplace : ∀ s : Spot, (L (bitsOf s.keys)).map Node.place = C.place s)
    (hdata : ∀ s : Spot, (L (bitsOf s.keys)).bind Node.value = C.data s) :
    File.content ⟨db, Γ, L, hrep, hrefines, hspots⟩ = C :=
  Content.ext (funext hplace) (funext hdata)

/-! ### Programs that look -/

namespace Path

variable {F : File} {s t : Spot} {p : Path} {key : Key}

theorem meets_look {α : Type} {f : Database → α} {Q : α → File → Prop} (h : Q (f F.db) F) :
    Meets (fun _ => look f) F Q :=
  .of_run rfl (View.refl F) h

theorem meets_hasData (hp : F.content.place s = some p.index) :
    Meets (fun _ => p.hasDataNow) F fun b F' => F' = F ∧ b = (F.content.data s).isSome := by
  obtain ⟨n, hn, he⟩ := File.node_of_place hp
  refine meets_look ⟨rfl, ?_⟩
  have hdata : F.content.data s = n.value := by simp [File.content, File.node, hn]
  rw [hdata, ← F.rep.hasData hn p.count, ← he]

theorem meets_getData {α : Type} [Stored α] (hp : F.content.place s = some p.index) :
    Meets (fun _ => p.getDataAs α) F fun a F' => F' = F ∧
      a = ofData ((F.content.data s).getD []) := by
  obtain ⟨n, hn, he⟩ := File.node_of_place hp
  refine meets_look ⟨rfl, ?_⟩
  have hdata : F.content.data s = n.value := by simp [File.content, File.node, hn]
  rw [hdata, ← F.rep.getData hn p.count, ← he]

theorem meets_contains (ht : t.up = some (s, key)) (hp : F.content.place s = some p.index) :
    Meets (fun _ => p.containsNow key) F fun b F' => F' = F ∧ b = (F.content.place t).isSome := by
  obtain ⟨n, hn, he⟩ := File.node_of_place hp
  refine meets_look ⟨rfl, ?_⟩
  have hnode : (F.content.place t).isSome = (F.layout (bitsOf s.keys ++ key.bits)).isSome := by
    simp [File.content, File.node, Spot.bitsOf_keys_up ht]
  rw [hnode, ← F.rep.contains hn p.count, ← he]

/-- A path on a branch that is gone contains nothing. -/
theorem meets_contains_dead (hp : F.Dead p.index) (key : Key) :
    Meets (fun _ => p.containsNow key) F fun b F' => F' = F ∧ b = false := by
  obtain ⟨parent, hb, -⟩ := hp
  refine meets_look ⟨rfl, ?_⟩
  have hdead : (F.db.getBranch p.index).isDeadEnd = true := by
    rw [F.rep.holds.getBranch hb]
    rfl
  unfold Path.contains Path.Contains.new
  rw [hdead]
  exact Rep.contains_fold_false _ _

/-- Nothing stands below a dead end. -/
theorem meets_isDeadEnd (hp : F.content.place s = some p.index) :
    Meets (fun _ => p.isDeadEndNow) F fun b F' => F' = F ∧
    (b = true ↔ ∀ t, s.Under t → t ≠ s → F.content.place t = none) := by
  obtain ⟨n, hn, he⟩ := File.node_of_place hp
  refine meets_look ⟨rfl, ?_⟩
  have hzero : F.layout.place (bitsOf s.keys ++ [false]) = 0 :=
    Layout.place_of_none (Rep.no_zero F.refines _)
  have hdead : Path.isDeadEnd F.db p = true ↔ F.layout (bitsOf s.keys ++ [true]) = none := by
    rw [Path.isDeadEnd, he, F.rep.getBranch hn]
    simp only [Branch.isDeadEnd, Layout.branch, hzero, beq_self_eq_true, Bool.true_and, beq_iff_eq]
    rw [← not_iff_not, ← ne_eq, F.rep.place_ne_zero (by simp), Option.isSome_iff_ne_none]
  rw [hdead]
  constructor
  · intro hnone t hst hne
    rw [← File.node_eq_none]
    by_contra hsome
    obtain ⟨m, hm⟩ := Option.ne_none_iff_exists'.mp hsome
    have hbelow := bitsOf_below hst fun hk => hne (Spot.keys_injective hk)
    obtain ⟨j, hj⟩ := F.rep.of_isPrefix hm hbelow
    rw [hnone] at hj
    cases hj
  · intro hall
    by_contra hsome
    obtain ⟨m, hm⟩ := Option.ne_none_iff_exists'.mp hsome
    obtain ⟨ks, hks, hpre⟩ := F.refines.present hm
    have hks' : (F.layout (bitsOf ks)).isSome := by simpa using hks
    obtain ⟨t, rfl⟩ := F.spots ks hks'
    have hst : s.Under t := bitsOf_isPrefix.mp ((List.prefix_append _ _).trans hpre)
    have hne : t ≠ s := by
      rintro rfl
      exact not_concat_isPrefix hpre
    have hnone := File.node_eq_none.mpr (hall t hst hne)
    rw [File.node] at hnone
    rw [hnone] at hks'
    cases hks'

/-! ### Walking -/

/-- Walking to a spot makes it if it is not there. -/
theorem meets_walk (ht : t.up = some (s, key)) (hp : F.content.place s = some p.index) :
    Meets (fun _ => p.walk key) F fun q F' => F'.content = F.content.make t q.index ∧
      (F.content.place t = some q.index ∨ F.content.place t = none ∧ F.db.size ≤ q.index) := by
  obtain ⟨n, hn, he⟩ := File.node_of_place hp
  obtain ⟨Γ', L', m, hm, hrep, hw, hg, hs, hv⟩ := F.rep.get hn he key
  rw [← Spot.bitsOf_keys_up ht] at hw hg
  have hspots : ∀ ks, (L' (bitsOf ks)).isSome → ∃ u : Spot, u.keys = ks := by
    intro ks hks
    obtain ⟨k, hk⟩ := Option.isSome_iff_exists.mp hks
    cases hold : F.layout (bitsOf ks) with
    | some _ => exact F.spots ks (by rw [hold]; rfl)
    | none => exact Spot.exists_of_isPrefix (bitsOf_isPrefix.mp (hg.new hold hk).2)
  -- no other spot is new
  have hother : ∀ u : Spot, u ≠ t → L' (bitsOf u.keys) = F.layout (bitsOf u.keys) := by
    intro u hu
    cases hold : F.layout (bitsOf u.keys) with
    | some k => exact hg.old hold
    | none =>
      by_contra hne
      obtain ⟨k, hk⟩ := Option.ne_none_iff_exists'.mp hne
      have hut : u.Under t := bitsOf_isPrefix.mp (hg.new hold hk).2
      have hus := ((Spot.under_up ht).mp hut).resolve_left hu
      obtain ⟨j, hj⟩ := F.rep.of_isPrefix hn (bitsOf_isPrefix.mpr hus)
      rw [hold] at hj
      cases hj
  refine .of_run (a := (Path.get F.db p key).1)
    (w := ⟨_, Γ', L', hrep, (F.refines.grown hrep.toWF hg).self, hspots⟩) rfl ⟨hs, hv⟩ ⟨?_, ?_⟩
  · refine File.content_eq (fun u => ?_) fun u => ?_
    · by_cases hu : u = t
      · rw [hu, hw, Content.make_place_self, Option.map_some, hm]
      · rw [hother u hu, Content.make_place_of_ne hu]
        rfl
    · by_cases hu : u = t
      · rw [hu, hw, Content.make_data, Option.bind_some]
        cases hold : F.layout (bitsOf t.keys) with
        | some k =>
          have hk := hg.old hold
          rw [hw] at hk
          obtain rfl := Option.some.inj hk
          simp [File.content, File.node, hold]
        | none => simp [File.content, File.node, hold, Node.value, (hg.new hold hw).1]
      · rw [hother u hu, Content.make_data]
        rfl
  · cases hold : F.layout (bitsOf t.keys) with
    | some k =>
      have hk := hg.old hold
      rw [hw] at hk
      obtain rfl := Option.some.inj hk
      exact Or.inl (by rw [File.place_of_node (F := F) hold, hm])
    | none =>
      refine Or.inr ⟨File.node_eq_none.mp hold, ?_⟩
      rw [← hm]
      rcases hv.new hw with ⟨k, hk, -⟩ | hge
      · rw [hold] at hk
        cases hk
      · exact hge

/-- Walking to a spot that is there finds it. -/
theorem meets_walk_of_some {i : ℕ} (ht : t.up = some (s, key))
    (hp : F.content.place s = some p.index)
    (hi : F.content.place t = some i) : Meets (fun _ => p.walk key) F fun q F' => F' = F ∧
      q.index = i := by
  obtain ⟨n, hn, he⟩ := File.node_of_place hp
  obtain ⟨m, hm, rfl⟩ := File.exists_node hi
  rw [File.node, Spot.bitsOf_keys_up ht] at hm
  obtain ⟨hindex, hdb⟩ := F.rep.writeBits_of_some (p := p.copy) hn he hm
  refine .of_run (a := (Path.get F.db p key).1) ?_ (View.refl F) ⟨rfl, hindex⟩
  exact congrArg some (Prod.ext rfl hdb)

/-! ### Changing -/

/-- A program that shrinks the layout, but for data of `s`. What it leaves
stands where it stood. -/
theorem meets_of_shrinks {prog : DatabaseM Unit} {db' : Database} {Γ' : Heap} {L' : Layout}
    {M' : Store} {C : Content}
    (hrun : prog.run F.db = some ((), db')) (hrep : Rep db' Γ' L') (hsize : F.db.size ≤ db'.size)
    (hv : Evolves F.db.size F.heap F.layout Γ' L') (hL : F.layout.Shrinks L' (bitsOf s.keys))
    (hM : Refines L' M')
    (hplace : ∀ u, C.place u = if (M' u.keys).isSome then F.content.place u else none)
    (hdata : ∀ u, C.data u = (M' u.keys).join) : Meets (fun _ => prog) F fun _ F' =>
      F'.content = C := by
  have hspots : ∀ ks, (L' (bitsOf ks)).isSome → ∃ u : Spot, u.keys = ks := by
    intro ks hks
    obtain ⟨m, hm⟩ := Option.isSome_iff_exists.mp hks
    obtain ⟨n, hn, -⟩ := hL _ m hm
    exact F.spots ks (by rw [hn]; rfl)
  refine .of_run (w := ⟨db', Γ', L', hrep, hM.self, hspots⟩) hrun ⟨hsize, hv⟩
    (Content.ext (funext fun u => ?_) (funext fun u => ?_))
  · rw [hplace, ← hM.value]
    cases hu : L' (bitsOf u.keys) with
    | none => simp [File.content, File.node, hu]
    | some m =>
      obtain ⟨n, hn, hp, -⟩ := hL _ m hu
      simp [File.content, File.node, hu, hn, hp]
  · rw [hdata, ← hM.value]
    cases hu : L' (bitsOf u.keys) <;> simp [File.content, File.node, hu]

theorem join_value (F : File) (u : Spot) :
    ((F.layout (bitsOf u.keys)).map Node.value).join = F.content.data u := by
  cases hu : F.layout (bitsOf u.keys) <;> simp [File.content, File.node, hu]

theorem isSome_value (F : File) (u : Spot) :
    (if ((F.layout (bitsOf u.keys)).map Node.value).isSome then F.content.place u else none) =
      F.content.place u := by
  cases hu : F.layout (bitsOf u.keys) <;> simp [File.content, File.node, hu]

/-- Writing does not make a file shorter. -/
theorem size_le_setData (db : Database) (path : Path) (value : BString) :
    db.size ≤ (Path.setData db path value).2.size := by
  have hdelete : db.size ≤ (Path.deleteData db path).size := by
    simp only [Path.deleteData, Database.deleteData]
    split_ifs
    · exact le_max_left _ _
    · rfl
  have hwrite : ∀ (db : Database) (i : ℕ) (data : BString),
    db.size ≤ (db.writeData i data).size := by
    intro db i data
    rw [Database.writeData_eq]
    exact le_max_left _ _
  have hallocate : ∀ db' : Database, db.size ≤ db'.size → ∀ b : Branch,
      db.size ≤ ((db'.allocate value).2.setBranch path.index b).size := fun db' h b =>
    h.trans ((hwrite _ _ _).trans (le_max_left _ _))
  simp only [Path.setData]
  split_ifs
  · exact hallocate _ hdelete _
  · exact hdelete.trans (hwrite _ _ _)
  · exact hdelete
  · exact hallocate _ le_rfl _
  · exact hwrite _ _ _
  · exact le_rfl

theorem meets_setData {α : Type} [Stored α] (hp : F.content.place s = some p.index) (a : α) :
    Meets (fun _ => p.setDataTo a) F fun _ F' => F'.content = F.content.put s
      (some (toData a)) := by
  obtain ⟨n, hn, he⟩ := File.node_of_place hp
  obtain ⟨Γ', i, -, hrep, hv⟩ := F.rep.setData hn p.count (toData a)
  have hrun : (p.setDataTo a).run F.db =
    some ((), (Path.setData F.db ⟨n.place, p.count⟩ (toData a)).2) := by
    rw [show p = ⟨n.place, p.count⟩ from he ▸ rfl]
    rfl
  refine meets_of_shrinks hrun hrep (size_le_setData _ _ _) hv (Layout.put_shrinks hn rfl)
    (F.refines.put (m := ⟨n.place, some (i, toData a)⟩) hn) (fun u => ?_) fun u => ?_
  · by_cases hu : u = s
    · rw [hu, Store.put, Function.update_self]
      rfl
    · rw [Store.put, Function.update_of_ne fun hk => hu (Spot.keys_injective hk)]
      exact (isSome_value F u).symm
  · by_cases hu : u = s
    · rw [hu, Store.put, Function.update_self, Content.put_data_self]
      rfl
    · rw [Store.put, Function.update_of_ne fun hk => hu (Spot.keys_injective hk),
        Content.put_data_of_ne hu]
      exact (join_value F u).symm

/-- Clearing a key drops what stands below it. -/
theorem meets_clearKey (ht : t.up = some (s, key)) (hp : F.content.place s = some p.index) :
    Meets (fun _ => p.clearKeyNow key) F fun _ F' => F'.content = F.content.drop t.Under := by
  obtain ⟨n, hn, he⟩ := File.node_of_place hp
  have hpath : p = ⟨n.place, p.count⟩ := he ▸ rfl
  have hrun : ∀ {db'}, Path.clearKey F.db ⟨n.place, p.count⟩ key = some db' →
    (p.clearKeyNow key).run F.db = some ((), db') := by
    intro db' hdb
    show (Path.clearKey F.db p key).map _ = _
    rw [hpath, hdb]
    rfl
  have hplace : ∀ u, (F.content.drop t.Under).place u =
      if (Store.remove (fun ks => (F.layout (bitsOf ks)).map Node.value)
        t.keys u.keys).isSome then F.content.place u else none := by
    intro u
    by_cases hu : t.keys <+: u.keys
    · rw [Content.drop_place_of hu, Store.remove, if_pos hu]
      rfl
    · rw [Content.drop_place_of_not hu, Store.remove, if_neg hu, isSome_value]
  have hdata : ∀ u, (F.content.drop t.Under).data u =
      (Store.remove (fun ks => (F.layout (bitsOf ks)).map Node.value) t.keys u.keys).join := by
    intro u
    by_cases hu : t.keys <+: u.keys
    · rw [Content.drop_data_of hu, Store.remove, if_pos hu]
      rfl
    · rw [Content.drop_data_of_not hu, Store.remove, if_neg hu, join_value]
  cases hold : F.layout (bitsOf t.keys) with
  | none =>
    -- there is nothing to clear
    have hremove : Store.remove (fun ks => (F.layout (bitsOf ks)).map Node.value) t.keys =
        fun ks => (F.layout (bitsOf ks)).map Node.value := by
      funext ks
      unfold Store.remove
      split_ifs with hks
      · cases hk : F.layout (bitsOf ks) with
        | none => rfl
        | some m =>
          obtain ⟨k, hk⟩ := F.rep.of_isPrefix hk (bitsOf_isPrefix.mpr hks)
          rw [hold] at hk
          cases hk
      · rfl
    have hM :
      Refines F.layout (Store.remove (fun ks => (F.layout (bitsOf ks)).map Node.value) t.keys) := by
      rw [hremove]
      exact F.refines
    rw [Spot.bitsOf_keys_up ht] at hold
    exact meets_of_shrinks (s := s) (hrun (F.rep.clearKey_of_none hn p.count hold))
      F.rep le_rfl .refl Layout.shrinks_refl
      hM hplace hdata
  | some m =>
    rw [Spot.bitsOf_keys_up ht] at hold
    obtain ⟨db', Γ', x, b, r, hdb, hcut, hrep, hs, hv⟩ :=
      F.rep.clearKey hn p.count key (by rw [hold]; rfl)
    have hM := F.refines.remove F.rep.toWF hn hcut
    rw [← Spot.keys_up ht] at hM
    exact meets_of_shrinks (s := s) (hrun hdb) hrep hs.ge hv (Layout.shrinks_refl.prune _)
      hM hplace hdata

/-- `clear()` drops what stands below a spot, and its data. -/
theorem meets_clear (hp : F.content.place s = some p.index) :
    Meets (fun _ => p.clearNow) F fun _ F' =>
    F'.content = (F.content.drop fun u => s.Under u ∧ u ≠ s).put s none := by
  obtain ⟨n, hn, he⟩ := File.node_of_place hp
  obtain ⟨db', Γ', hdb, hrep, hs, hv⟩ := F.rep.clear hn p.count
  have hrun : (p.clearNow).run F.db = some ((), db') := by
    show (Path.clear F.db p).map _ = _
    rw [show p = ⟨n.place, p.count⟩ from he ▸ rfl, hdb]
    rfl
  have hM := (F.refines.put (m := ⟨n.place, none⟩) hn).removeBelow (Layout.put_same ..)
  have hne : ∀ {u : Spot}, u ≠ s → u.keys ≠ s.keys := fun hu hk => hu (Spot.keys_injective hk)
  refine meets_of_shrinks hrun hrep hs.ge hv
    (((Layout.put_shrinks hn (m := ⟨n.place, none⟩) rfl).prune _).prune _) hM
    (fun u => ?_) fun u => ?_
  · rw [Content.put_place]
    by_cases hu : s.keys <+: u.keys ∧ u.keys ≠ s.keys
    · have hdrop : s.Under u ∧ u ≠ s := ⟨hu.1, fun h => hu.2 (h ▸ rfl)⟩
      rw [Content.drop_place_of hdrop, Store.removeBelow, if_pos hu]
      rfl
    · have hdrop : ¬ (s.Under u ∧ u ≠ s) := fun h => hu ⟨h.1, hne h.2⟩
      rw [Content.drop_place_of_not hdrop, Store.removeBelow, if_neg hu, Store.put]
      by_cases hus : u = s
      · rw [hus, Function.update_self]
        rfl
      · rw [Function.update_of_ne (hne hus), isSome_value]
  · by_cases hus : u = s
    · rw [hus, Content.put_data_self, Store.removeBelow, if_neg (by simp), Store.put,
        Function.update_self]
      rfl
    · rw [Content.put_data_of_ne hus]
      by_cases hu : s.keys <+: u.keys
      · rw [Content.drop_data_of ⟨hu, hus⟩, Store.removeBelow, if_pos ⟨hu, hne hus⟩]
        rfl
      · have hdrop : ¬ (s.Under u ∧ u ≠ s) := fun h => hu h.1
        rw [Content.drop_data_of_not hdrop, Store.removeBelow, if_neg fun h => hu h.1, Store.put,
          Function.update_of_ne (hne hus), join_value]

/-! ### Going up -/

/-- The way up a key: the bits come off its end, and the count is its height
until it is at its start. -/
theorem parentFrom_spec {db : Database} {Γ : Heap} {L : Layout} (h : Rep db Γ L) {rootIndex : ℕ}
    {w : List Bool} {m : Node}
    (hw : L w = some m) (hz : L (w ++ [false]) = none) :
    ∀ {x : List Bool} {n : Node} {fuel : ℕ} {stack : List Bool}, x ≠ [] → L (w ++ x) = some n →
    (∀ y, y <+: x → y ≠ x → Stays 0 y) →
      (∀ y, y <+: x → y ≠ x → y ≠ [] → L.place (w ++ y) ≠ rootIndex) →
    x.length ≤ fuel → parentFrom rootIndex db fuel n.place (height 0 x) stack =
      some (m.place, x ++ stack.reverse) := by
  intro x
  induction x using List.reverseRecOn with
  | nil => exact fun h0 => absurd rfl h0
  | append_singleton u b ih =>
    intro n fuel stack _ hn hs hr hf
    have hlen : u.length + 1 ≤ fuel := by simpa using hf
    obtain ⟨fuel, rfl⟩ : ∃ k, fuel = k + 1 := ⟨fuel - 1, by omega⟩
    have hu : Stays 0 u := hs u (List.prefix_append _ _) fun he => by
      simpa using congrArg List.length he
    have hn' : L (w ++ u ++ [b]) = some n := by rwa [List.append_assoc]
    obtain ⟨k, hk, -⟩ := h.closed hn'
    have hparent : (db.getBranch n.place).parent = k.place := by
      rw [h.getBranch hn']
      show L.place (w ++ u ++ [b]).dropLast = _
      rw [List.dropLast_concat, Layout.place_of hk]
    have hchild : ∀ c, (db.getBranch k.place).child c = L.place (w ++ u ++ [c]) := fun c => by
      rw [h.getBranch hk, Layout.branch_child]
    have hself : L.place (w ++ u ++ [b]) = n.place := Layout.place_of hn'
    have hother : n.place ≠ L.place (w ++ u ++ [!b]) := by
      cases ho : L (w ++ u ++ [!b]) with
      | none =>
        rw [Layout.place_of_none ho]
        exact (h.place_pos (by simp) hn').ne'
      | some j =>
        rw [Layout.place_of ho]
        intro he
        simpa using h.inj hn' ho he
    -- the bit is read off the links of the parent
    have hstep :
      (if n.place = (db.getBranch k.place).left then ((height 0 (u ++ [b]) : ℤ) + 1,
      stack ++ [false])
        else if n.place = (db.getBranch k.place).right then ((height 0 (u ++ [b]) : ℤ) - 1,
          stack ++ [true])
        else ((height 0 (u ++ [b]) : ℤ), stack)) =
        ((height 0 u : ℤ), stack ++ [b]) := by
      have hl : (db.getBranch k.place).left = L.place (w ++ u ++ [false]) := hchild false
      have hr' : (db.getBranch k.place).right = L.place (w ++ u ++ [true]) := hchild true
      rw [hl, hr']
      cases b with
      | false =>
        have hnil : u ≠ [] := by
          rintro rfl
          have hsome : L (w ++ [false]) = some n := by simpa using hn
          rw [hz] at hsome
          cases hsome
        have hpos := height_pos_of_stays u 0 hu (Or.inr hnil)
        rw [if_pos hself.symm, height_append, height_false, height_nil]
        congr 1
        omega
      | true =>
        have hne : n.place ≠ L.place (w ++ u ++ [false]) := hother
        rw [if_neg hne, if_pos hself.symm, height_append, height_true, height_nil]
        congr 1
        omega
    rw [parentFrom]
    simp only [hparent]
    rw [hstep]
    by_cases hnil : u = []
    · subst hnil
      have hmk : k.place = m.place := by
        rw [List.append_nil, hw] at hk
        rw [Option.some.inj hk]
      simp [hmk]
    · have hpos := height_pos_of_stays u 0 hu (Or.inr hnil)
      have hroot : k.place ≠ rootIndex := by
        rw [← Layout.place_of hk]
        exact hr u (List.prefix_append _ _) (fun he => by simpa using congrArg List.length he) hnil
      have h0 : k.place ≠ 0 := (h.place_pos (by simp [hnil]) hk).ne'
      rw [if_pos ⟨by omega, hroot, h0⟩, ih hnil hk]
      · simp
      · exact fun y hy hne => hs y (hy.trans (List.prefix_append _ _)) fun he => by
          subst he
          exact absurd hy.length_le (by simp)
      · exact fun y hy hne => hr y (hy.trans (List.prefix_append _ _)) fun he => by
          subst he
          exact absurd hy.length_le (by simp)
      · omega

/-- The way up a key, where the root of the database is at the end of a key. -/
theorem parentFrom_key {db : Database} {Γ : Heap} {L : Layout} {M : Store} (h : Rep db Γ L)
    (hM : Refines L M) {r ks : List Key}
    {key : Key} {j m n : Node} (hroot : L (bitsOf r) = some j) (hm : L (bitsOf ks) = some m)
    (hn : L (bitsOf ks ++ key.bits) = some n) (stack : List Bool) :
    parentFrom j.place db (depth db) n.place 0 stack =
      some (m.place, key.bits ++ stack.reverse) := by
  have hbetween :
      ∀ y, y <+: key.bits → y ≠ key.bits → y ≠ [] → L.place (bitsOf ks ++ y) ≠ j.place := by
    intro y hy hne hnil hplace
    obtain ⟨k, hk⟩ := h.of_isPrefix hn ((List.prefix_append_right_inj (bitsOf ks)).mpr hy)
    rw [Layout.place_of hk] at hplace
    have hbits := h.inj hk hroot hplace
    obtain ⟨js, rfl⟩ := bitsOf_isPrefix.mp ⟨y, hbits⟩
    rw [bitsOf_append, List.append_cancel_left_eq] at hbits
    cases js with
    | nil => exact hnil hbits
    | cons first js =>
      have hy' : y = first.bits ++ bitsOf js := hbits
      have hpre : first.bits <+: key.bits :=
        (hy' ▸ List.prefix_append first.bits (bitsOf js)).trans hy
      have heq := first.isCode.eq_of_isPrefix key.isCode hpre
      refine hne (hy.eq_of_length_le ?_)
      rw [hy', ← heq, List.length_append]
      exact Nat.le_add_right _ _
  have hlen : key.bits.length ≤ depth db := by
    have h1 := h.length_le hn
    have h2 := h.place_lt hn
    simp only [List.length_append] at h1
    unfold depth
    omega
  have hfrom : parentFrom j.place db (depth db) n.place (height 0 key.bits) stack = _ :=
    parentFrom_spec h hm (Rep.no_zero hM _)
    key.isCode.ne_nil hn (fun y hy hne => key.isCode.stays_of_isPrefix hy hne) hbetween hlen
  rwa [height_closes key.isCode] at hfrom

/-- A key is read off the way up to the spot it leads from. -/
theorem meets_parentValue {α : Type} [Encoded α] [LawfulEncoded α] {a : α} {rootIndex : ℕ}
    (ht : t.up = some (s, .of a))
    (hp : F.content.place t = some p.index)
    (hroot : F.content.place (.node [] .self) = some rootIndex) :
    Meets (fun _ => p.parentValue α rootIndex) F fun r F' => F' = F ∧ r.1 = a ∧
      F.content.place s = some r.2.index := by
  obtain ⟨n, hn, he⟩ := File.node_of_place hp
  rw [Spot.bitsOf_keys_up ht] at hn
  obtain ⟨m, hm⟩ := F.rep.of_isPrefix hn (List.prefix_append _ _)
  obtain ⟨j, hj, rfl⟩ := File.exists_node hroot
  have hfrom := parentFrom_key F.rep F.refines hj hm hn []
  rw [List.reverse_nil, List.append_nil] at hfrom
  have hdecode := LawfulEncoded.decode_encode a (s := ⟨(Key.of a).bits, 0, 0⟩)
    (show Stack.rest ⟨(Key.of a).bits, 0, 0⟩ = encode a ++ [] by simp [Stack.rest, Key.of]) rfl
  refine .of_run (a := (a, ⟨m.place, 0⟩)) ?_ (View.refl F)
    ⟨rfl, rfl, File.place_of_node (F := F) hm⟩
  show Path.parentValue α j.place p F.db = _
  rw [Path.parentValue, he, hfrom]
  simp only [Option.bind_eq_bind, Option.bind_some, hdecode]
  rfl

end Path

end BeeFish
