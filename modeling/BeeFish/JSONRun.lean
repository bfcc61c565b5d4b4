/-
# Runs of a JSON database

A new database holds the tree with its root only, and after any consistent
accesses the tree that they make (`JSONDatabase.run_stands`). What follows is
said without the tree: equal properties lead to the same node, whatever is
made in between; going up from a node gives the properties that led to it; and
a node contains a property exactly if an access went through it.

Key definitions: `File.create`, `Fresh`, `JSONDatabase.run`.
-/
import BeeFish.JSONAccess
import BeeFish.Pages

namespace BeeFish

/-! ### Properties that are there -/

namespace JSON

variable {J : JSONDatabase} {D : NodeTree} {F : File} {a : List ℕ} {p : Path} {name : BString}

/-- A node contains a property if a child has it as its key. -/
theorem meets_contains (h : Holds J D F.content)
    (hp : F.content.place (.node a .self) = some p.index) :
    Meets (fun _ => contains J p name) F fun b F' => F.content.SameBut Spot.Loose F'.content ∧
      (b = true ↔ ∃ i, D.key a i = some (.string name)) := by
  refine Meets.bind (meets_type h hp) ?_
  rintro τ F' - ⟨rfl, rfl⟩
  by_cases hτ : D.type a = some .object
  case neg =>
    have hne : (D.type a).getD .undefined ≠ .object := by
      intro he
      cases htype : D.type a with
      | none => rw [htype] at he; cases he
      | some τ => rw [htype] at he hτ; exact hτ (congrArg some he)
    rw [if_pos hne]
    refine Meets.ret ⟨.refl _ _, fun hf => (Bool.false_ne_true hf).elim, ?_⟩
    rintro ⟨i, hi⟩
    exact absurd (h.sound.string hi) hτ
  rw [if_neg (by rw [hτ]; exact fun hne => hne rfl)]
  refine Meets.bind (Path.meets_contains (t := .property name) rfl h.properties) ?_
  rintro b F' - ⟨rfl, rfl⟩
  cases hx : F'.content.place (.property name) with
  | none =>
    refine Meets.ret ⟨.refl _ _, fun hf => (Bool.false_ne_true hf).elim, ?_⟩
    rintro ⟨i, hi⟩
    obtain ⟨x, hsome, -⟩ := h.entry hi
    rw [hx] at hsome
    cases hsome
  | some x =>
    refine Meets.bind (Path.meets_walk_of_some (t := .property name) rfl h.properties hx) ?_
    rintro q F'' - ⟨rfl, rfl⟩
    refine Meets.bind (Path.meets_walk (Spot.up_properties a) hp) ?_
    rintro r F₁ - ⟨h₁, -⟩
    refine (Path.meets_contains (Spot.up_property a q.index)
      (by rw [h₁, Content.make_place_self])).mono ?_
    rintro b F' - ⟨rfl, rfl⟩
    refine ⟨by rw [h₁]; exact .make trivial _, ?_⟩
    rw [h₁, Content.make_place_of_ne (by simp)]
    constructor
    · intro hsome
      obtain ⟨i, name', hi, hname⟩ := h.only hsome
      cases F''.sound.inj hname hx
      exact ⟨i, hi⟩
    · rintro ⟨i, hi⟩
      obtain ⟨y, hy, hdata, -⟩ := h.entry hi
      obtain rfl := Option.some.inj (hx.symm.trans hy)
      exact File.isSome_of_data hdata (Spot.under_refl _)

theorem exists_contains (h : Holds J D F.content)
    (hp : F.content.place (.node a .self) = some p.index) (name : BString) :
    ∃ b db, (contains J p name).run F.db = some (b, db) ∧
      (b = true ↔ ∃ i, D.key a i = some (.string name)) := by
  have hmeets : Meets (fun _ => contains J p name) F fun b F' =>
    F.content.SameBut Spot.Loose F'.content ∧
      (b = true ↔ ∃ i, D.key a i = some (.string name)) := meets_contains h hp
  obtain ⟨b, F', hb, -, hiff⟩ := hmeets.exists_run
  exact ⟨b, F'.db, hb, hiff⟩

end JSON

/-! ### A new database -/

/-- The file with its root only. -/
def File.create : File where
  db := .create
  heap := Function.update (fun _ => none) 0 (some (.branch (.new 0)))
  layout := Layout.put (fun _ => none) [] ⟨0, none⟩
  rep := Rep.create
  refines := Refines.create.self
  spots ks hks := by
    refine ⟨.root, ?_⟩
    by_contra hne
    have hb : bitsOf ks ≠ [] := fun hb => hne (bitsOf_injective (hb.trans bitsOf_nil.symm)).symm
    rw [Layout.put_of_ne hb] at hks
    cases hks

theorem File.create_content :
    File.create.content = ⟨fun s => if s = .root then some 0 else none, fun _ => none⟩ := by
  have hnode : ∀ s : Spot, s ≠ .root → File.create.node s = none := by
    intro s hs
    have hb : bitsOf s.keys ≠ [] :=
      fun hb => hs (Spot.keys_injective (bitsOf_injective (hb.trans bitsOf_nil.symm)))
    exact Layout.put_of_ne (L := fun _ => none) hb _
  have hroot : File.create.node .root = some ⟨0, none⟩ := Layout.put_same (fun _ => none) [] _
  refine Content.ext (funext fun s => ?_) (funext fun s => ?_)
  · by_cases hs : s = .root
    · subst hs
      simp [File.content, hroot]
    · simp [File.content, hnode s hs, hs]
  · by_cases hs : s = .root
    · subst hs
      simp [File.content, hroot, Node.value]
    · simp [File.content, hnode s hs]

/-- What is in the file of a new database. -/
structure Fresh (J : JSONDatabase) (C : Content) : Prop where
  place : ∀ s, C.place s = if s = .root then some 0
    else if s = .authentication then some J.authentication.index
    else if s = .users then some J.users.index else if s = .properties then some J.properties.index
    else if s = .words then some J.words.index else if s = .objects then some J.objects.index
    else if s = .node [] .self then some J.json.index else none
  data : ∀ s, C.data s = none

theorem Fresh.holds {J : JSONDatabase} {C : Content} (h : Fresh J C) : Holds J .empty C where
  sound := NodeTree.sound_empty
  json := by simp [h.place]
  properties := by simp [h.place]
  words := by simp [h.place]
  objects := by simp [h.place]
  live a := by
    rw [NodeTree.live_empty, h.place]
    by_cases ha : a = [] <;> simp [ha]
  type a := by rw [h.data]; rfl
  count a := by rw [h.data]; rfl
  entry hi := by cases hi
  only hx := by simp [h.place] at hx
  used hp := by simp [h.place] at hp
  user := by simp [h.place, NodeTree.empty]

theorem Fresh.stands {J : JSONDatabase} {C : Content} (L : Locale) (h : Fresh J C) :
    Stands J L .empty C := by
  refine ⟨[[]], ⟨h.holds, fun x k => ?_, ?_⟩, fun a ha => by simp [(NodeTree.live_empty a).mp ha]⟩
  · simp [h.place, NodeTree.empty]
  · constructor
    case nodup => exact List.nodup_singleton _
    case live => simp [NodeTree.Live]
    case tally => simp [Content.tally, h.data, NodeTree.entries, NodeTree.names]
    case place => simp [h.place, NodeTree.entries, NodeTree.names]
    case word => simp [h.place, NodeTree.entries, NodeTree.names]

/-- A new database holds the tree with its root only. -/
theorem JSONDatabase.meets_new : Meets (fun _ => JSONDatabase.new) File.create fun J F =>
    Fresh J F.content := by
  have hroot : File.create.content.place .root = some Path.root.index := by
    rw [File.create_content]; rfl
  refine Meets.bind (Path.meets_walk (t := .authentication) rfl hroot) ?_
  rintro authentication F₁ - ⟨h₁, -⟩
  refine Meets.bind (Path.meets_walk (t := .users) (s := .root) rfl (by rw [h₁]; simpa using hroot))
    ?_
  rintro users F₂ - ⟨h₂, -⟩
  refine Meets.bind (Path.meets_walk (t := .properties) (s := .root) rfl
    (by rw [h₂, h₁]; simpa using hroot)) ?_
  rintro properties F₃ - ⟨h₃, -⟩
  refine Meets.bind (Path.meets_walk (t := .words) (s := .root) rfl
    (by rw [h₃, h₂, h₁]; simpa using hroot)) ?_
  rintro words F₄ - ⟨h₄, -⟩
  refine Meets.bind (Path.meets_walk (t := .objects) (s := .root) rfl
    (by rw [h₄, h₃, h₂, h₁]; simpa using hroot)) ?_
  rintro objects F₅ - ⟨h₅, -⟩
  refine Meets.bind (Path.meets_walk (t := .node [] .self) (s := .root) rfl
    (by rw [h₅, h₄, h₃, h₂, h₁]; simpa using hroot)) ?_
  rintro json F₆ - ⟨h₆, -⟩
  refine Meets.ret ⟨fun s => ?_, fun s => ?_⟩
  · rw [h₆, h₅, h₄, h₃, h₂, h₁, File.create_content]
    simp only [Content.make_place]
    split_ifs <;> simp_all
  · rw [h₆, h₅, h₄, h₃, h₂, h₁, File.create_content]
    rfl

/-! ### Runs -/

/-- The accesses to a new database. -/
def JSONDatabase.run (L : Locale) (xs : List Access) (fuel : ℕ) :
    DatabaseM (JSONDatabase × List Path) := do
  let J ← new
  let paths ← JSON.accessAll J L fuel xs
  return (J, paths)

section

variable (L : Locale) {xs : List Access} {D : NodeTree}

theorem JSONDatabase.meets_run (h : NodeTree.empty.accessAll xs = some D) :
    Meets (fun fuel => run L xs fuel) File.create
    fun r F => ∃ C, Ran r.1 L .empty C xs D F.content r.2 := by
  refine Meets.bind meets_new ?_
  rintro J F₁ - h₁
  refine Meets.bind (JSON.meets_accessAll (h₁.stands L) h) ?_
  rintro ps F₂ - h₂
  exact Meets.ret ⟨_, h₂⟩

/-- The file of a new database holds the tree that the accesses make, with its
tables and indices exact. -/
theorem JSONDatabase.run_stands (h : Access.Consistent xs) :
    ∃ (D : NodeTree) (J : JSONDatabase) (paths : List Path) (F : File),
      NodeTree.empty.accessAll xs = some D ∧
      Returns (fun fuel => (run L xs fuel).run .create) ((J, paths), F.db) ∧
        Stands J L D F.content ∧
        List.Forall₂ (fun x p => ∃ a, F.content.place (.node a .self) = some (Path.index p) ∧
          D.way a = (Access.names x).reverse.map .string) xs paths := by
  obtain ⟨D, hD⟩ := Option.isSome_iff_exists.mp (NodeTree.isSome_accessAll h)
  obtain ⟨⟨J, paths⟩, F, hrun, -, C, hran⟩ := meets_run L hD
  exact ⟨D, J, paths, F, hD, hrun, hran.stands, hran.nodes⟩

theorem JSONDatabase.run_stands_null :
    ∃ (D : NodeTree) (J : JSONDatabase) (paths : List Path) (F : File),
    NodeTree.empty.accessAll [⟨[text "a"], some .null⟩] = some D ∧
      Returns (fun fuel => (run .c [⟨[text "a"], some .null⟩] fuel).run .create)
        ((J, paths), F.db) ∧ Stands J .c D F.content := by
  have hconsistent : Access.Consistent [⟨[text "a"], some .null⟩] := by
    refine ⟨fun names => if names = [] then .object else .null, fun x hx => ?_⟩
    obtain rfl := List.mem_singleton.mp hx
    refine ⟨fun n hn => ?_, fun he => ?_, fun {names name} hpre => ?_⟩
    · obtain rfl := List.mem_singleton.mp hn
      exact Utf8.isUtf8_ascii (by decide +kernel)
    · obtain rfl := Option.some.inj he
      exact ⟨rfl, by decide +kernel⟩
    · have hlength : (names ++ [name]).length ≤ 1 := hpre.length_le
      rw [List.length_append, List.length_singleton] at hlength
      exact if_pos (List.length_eq_zero_iff.mp (by omega))
  obtain ⟨D, J, paths, F, hD, hrun, hstands, -⟩ := run_stands .c hconsistent
  exact ⟨D, J, paths, F, hD, hrun, hstands⟩

/-- Accesses with ASCII names that set no type are consistent. -/
theorem Access.consistent_of_none (xs : List Access) (h : ∀ x ∈ xs, x.type = none)
    (hascii : ∀ x ∈ xs, ∀ n ∈ x.names, ∀ b ∈ n, b < 0x80) : Access.Consistent xs := by
  refine ⟨fun _ => .object, fun x hx => ⟨fun n hn => Utf8.isUtf8_ascii (hascii x hx n hn),
    fun {τ} hτ => ?_, fun _ => rfl⟩⟩
  rw [h x hx] at hτ
  cases hτ

/-- Equal properties lead to the same node and different ones to different
nodes, whatever is made in between. -/
theorem JSONDatabase.run_tells_apart (h : Access.Consistent xs) :
    ∃ (J : JSONDatabase) (paths : List Path) (db : Database),
      Returns (fun fuel => (run L xs fuel).run .create) ((J, paths), db) ∧
      paths.length = xs.length ∧ ∀ {x p y q}, (x, p) ∈ xs.zip paths → (y, q) ∈ xs.zip paths →
        (p.index = q.index ↔ x.names = y.names) := by
  obtain ⟨D, J, paths, F, -, hrun, hstands, hnodes⟩ := run_stands L h
  refine ⟨J, paths, F.db, hrun, hnodes.length_eq.symm, fun {x p y q} hx hy => ?_⟩
  obtain ⟨a, ha, hway⟩ := (List.forall₂_iff_zip.mp hnodes).2 hx
  obtain ⟨b, hb, hway'⟩ := (List.forall₂_iff_zip.mp hnodes).2 hy
  constructor
  · intro he
    obtain rfl : a = b := by
      have hnode := F.sound.inj ha (he ▸ hb)
      cases hnode
      rfl
    exact NodeTree.names_injective (hway.symm.trans hway')
  · intro he
    rw [he, ← hway'] at hway
    have hab := hstands.holds.sound.way_injective (hstands.holds.live_of_place ha)
      (hstands.holds.live_of_place hb) hway
    rw [hab] at ha
    exact Option.some.inj (ha.symm.trans hb)

theorem JSONDatabase.run_tells_apart_two : ∃ (J : JSONDatabase) (p q r : Path) (db : Database),
    Returns (fun fuel =>
      (run .c [⟨[text "a"], none⟩, ⟨[text "a", text "b"], none⟩, ⟨[text "a"], none⟩]
        fuel).run .create)
      ((J, [p, q, r]), db) ∧ p.index = r.index ∧ p.index ≠ q.index := by
  obtain ⟨J, paths, db, hrun, hlength, hnodes⟩ := run_tells_apart .c
    (Access.consistent_of_none [⟨[text "a"], none⟩, ⟨[text "a", text "b"], none⟩,
      ⟨[text "a"], none⟩] (by simp) (by decide +kernel))
  obtain ⟨p, q, r, rfl⟩ := List.length_eq_three.mp hlength
  refine ⟨J, p, q, r, db, hrun, (hnodes (.head _) (.tail _ (.tail _ (.head _)))).mpr rfl,
    fun he => ?_⟩
  cases (hnodes (.head _) (.tail _ (.head _))).mp he

/-- Whatever is made later, going up from a node gives the properties that led
to it, and the root. -/
theorem JSONDatabase.run_goes_up (h : Access.Consistent xs) :
    ∃ (J : JSONDatabase) (paths : List Path) (db : Database),
      Returns (fun fuel => (run L xs fuel).run .create) ((J, paths), db) ∧
      paths.length = xs.length ∧ ∀ {x p}, (x, p) ∈ xs.zip paths → ∃ steps, (JSON.way J p).run db =
        some (⟨steps, J.json.index⟩, db) ∧
        steps.map Prod.fst = x.names.reverse.map .string := by
  obtain ⟨D, J, paths, F, -, hrun, hstands, hnodes⟩ := run_stands L h
  refine ⟨J, paths, F.db, hrun, hnodes.length_eq.symm, fun {x p} hx => ?_⟩
  obtain ⟨a, ha, hway⟩ := (List.forall₂_iff_zip.mp hnodes).2 hx
  obtain ⟨node, F', hp, rfl, hnode⟩ := (JSON.meets_way hstands.holds ha).exists_run
  rw [NodeTree.node, Content.index_of hstands.holds.json] at hnode
  exact ⟨_, hnode ▸ hp, by rw [NodeTree.steps_map_fst, hway]⟩

theorem JSONDatabase.run_goes_up_two :
    ∃ (J : JSONDatabase) (p : Path) (db : Database) (steps : List (Component × ℕ)),
    Returns (fun fuel => (run .c [⟨[text "a", text "b"], none⟩] fuel).run .create) ((J, [p]), db) ∧
      (JSON.way J p).run db = some (⟨steps, J.json.index⟩, db) ∧ steps.map Prod.fst =
        [.string (text "b"), .string (text "a")] := by
  obtain ⟨J, paths, db, hrun, hlength, hnodes⟩ := run_goes_up .c
    (Access.consistent_of_none [⟨[text "a", text "b"], none⟩] (by simp) (by decide +kernel))
  obtain ⟨p, rfl⟩ := List.length_eq_one_iff.mp hlength
  obtain ⟨steps, hway, hsteps⟩ := hnodes (.head _)
  exact ⟨J, p, db, steps, hrun, hway, hsteps⟩

/-- A node contains a property exactly if one of the accesses went through it. -/
theorem JSONDatabase.run_contains (h : Access.Consistent xs) :
    ∃ (J : JSONDatabase) (paths : List Path) (db : Database),
      Returns (fun fuel => (run L xs fuel).run .create) ((J, paths), db) ∧
      paths.length = xs.length ∧ ∀ {x p}, (x, p) ∈ xs.zip paths → ∀ name, ∃ b db',
        (JSON.contains J p name).run db = some (b, db') ∧
        (b = true ↔ ∃ y ∈ xs, x.names ++ [name] <+: y.names) := by
  obtain ⟨D, hD⟩ := Option.isSome_iff_exists.mp (NodeTree.isSome_accessAll h)
  obtain ⟨⟨J, paths⟩, F, hrun, -, C, hran⟩ := meets_run L hD
  refine ⟨J, paths, F.db, hrun, hran.nodes.length_eq.symm, fun {x p} hx name => ?_⟩
  obtain ⟨a, ha, hway⟩ := (List.forall₂_iff_zip.mp hran.nodes).2 hx
  obtain ⟨b, db', hb, hiff⟩ := JSON.exists_contains hran.stands.holds ha name
  exact ⟨b, db', hb, hiff.trans (hran.exists_key_iff (hran.stands.holds.live_of_place ha) hway)⟩

theorem JSONDatabase.run_contains_two : ∃ (J : JSONDatabase) (p q : Path) (db db' : Database),
    Returns (fun fuel => (run .c [⟨[text "a"], none⟩, ⟨[text "a", text "b"], none⟩] fuel).run
      .create) ((J, [p, q]), db) ∧
      (JSON.contains J p (text "b")).run db = some (true, db') := by
  obtain ⟨J, paths, db, hrun, hlength, hnodes⟩ := run_contains .c
    (Access.consistent_of_none [⟨[text "a"], none⟩, ⟨[text "a", text "b"], none⟩] (by simp)
      (by decide +kernel))
  obtain ⟨p, q, rfl⟩ := List.length_eq_two.mp hlength
  obtain ⟨b, db', hb, hiff⟩ := hnodes (.head _) (text "b")
  obtain rfl := hiff.mpr ⟨_, .tail _ (.head _), List.prefix_refl _⟩
  exact ⟨J, p, q, db, db', hrun, hb⟩

end

end BeeFish
