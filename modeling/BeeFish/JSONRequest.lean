/-
# Requests to a JSON database

A request is an access, after which a property of its node may be deleted. After
any run of consistent requests the file holds the tree of the properties that
were made and have not been deleted since (`JSONDatabase.runRequests_keeps`),
with its tables and indices exact.

A walk to a property that is not there makes nothing of the tree, and a property
that is there takes with it all properties below it (`Keeps.delete`). No name is
`{HTTP}`, and no node is a string or an array.

Key definitions: `Request.keeps`, `Request.kept`, `Keeps`, `JSON.request`.
-/
import BeeFish.JSONDelete

namespace BeeFish

/-! ### Requests -/

/-- An access, and the property of its node that is deleted, if one is. -/
structure Request where
  access : Access
  deleted : Option BString

namespace Request

/-- The properties that are left after the request. -/
def keeps (r : Request) (S : Set (List BString)) : Set (List BString) :=
  {ns | (ns ∈ S ∨ ns <+: r.access.names) ∧ ∀ name ∈ r.deleted, ¬ r.access.names ++ [name] <+: ns}

/-- The properties that are left after requests to a new database. -/
def kept (rs : List Request) : Set (List BString) := rs.foldl (fun S r => r.keeps S) {[]}

/-- The request goes with the types of the nodes, and no name is `{HTTP}`. -/
structure Fits (r : Request) (L : Locale) (types : List BString → JSONType) : Prop where
  access : r.access.Fits types
  plain : ∀ n ∈ r.access.names, isHttp L (.string n) = false

/-- Each node is to have one type, whatever is requested; none is to be a
string or an array. -/
def Consistent (L : Locale) (rs : List Request) : Prop :=
  ∃ types : List BString → JSONType, (∀ ns, types ns ≠ .string ∧ types ns ≠ .array) ∧ ∀ r ∈ rs,
    r.Fits L types

end Request

namespace JSON

variable (J : JSONDatabase) (L : Locale) (fuel : ℕ)

def request (r : Request) : DatabaseM Unit := do
  let path ← access J L fuel r.access
  match r.deleted with
  | none => return
  | some property => deleteProperty J L fuel path property

def requestAll : List Request → DatabaseM Unit
  | [] => return
  | r :: rs => do
    request J L fuel r
    requestAll rs

end JSON

/-! ### Ways and names -/

namespace NodeTree

variable {D D' : NodeTree} {a c : List ℕ} {i : ℕ} {name : BString} {ns ms : List BString}

/-- What names end with are names. -/
theorem exists_names_of_isSuffix {w : List Component} {ms : List BString}
    (h : w <:+ ms.reverse.map Component.string) :
    ∃ ns, ns <+: ms ∧ w = ns.reverse.map .string := by
  obtain ⟨v, hv⟩ := h
  obtain ⟨l₁, l₂, he, -, rfl⟩ := List.map_eq_append_iff.mp hv.symm
  refine ⟨l₂.reverse, ?_, by rw [List.reverse_reverse]⟩
  rw [← List.reverse_suffix, List.reverse_reverse, he]
  exact List.suffix_append l₁ l₂

theorem way_of_sub (h : ∀ {c j d}, D'.key c j = some d → D.key c j = some d) : ∀ {c : List ℕ},
    D'.Live c → D'.way c = D.way c
  | [], _ => rfl
  | j :: c, hc => by
    obtain ⟨d, hd⟩ := Option.isSome_iff_exists.mp hc.2
    rw [way, way, way_of_sub h hc.1, hd, h hd]

/-- What is below a property has its names first. -/
theorem Sound.isSuffix_iff (h : D.Sound) (hi : D.key a i = some (.string name))
    (ha : D.way a = ns.reverse.map .string)
    (hc : D.Live c) (hway : D.way c = ms.reverse.map .string) : i :: a <:+ c ↔
      ns ++ [name] <+: ms := by
  have hchild : D.way (i :: a) = (ns ++ [name]).reverse.map .string := by
    rw [way, hi, ha]
    simp
  rw [← names_isPrefix_iff, ← hchild, ← hway]
  constructor
  · exact way_isSuffix
  · intro hs
    obtain ⟨b, hb, he⟩ := exists_of_way_isSuffix hs
    rwa [← h.way_injective (hc.of_suffix hb) (h.live_of_key hi) he]

/-- Where no child has the property, nothing is below it. -/
theorem Sound.not_isPrefix (h : D.Sound) (hnone : ∀ i, D.key a i ≠ some (.string name))
    (ha : D.Live a)
    (haway : D.way a = ns.reverse.map .string) (hc : D.Live c)
    (hway : D.way c = ms.reverse.map .string) : ¬ ns ++ [name] <+: ms := by
  intro hs
  have he : Component.string name :: D.way a = (ns ++ [name]).reverse.map .string := by simp [haway]
  rw [← names_isPrefix_iff, ← hway, ← he] at hs
  obtain ⟨i, -, hi⟩ := h.exists_key ha hc hs
  exact hnone i hi

/-- A node that is there is found without making any. -/
theorem Sound.childAll_eq (h : D.Sound) (hc : D.Live c) :
    ∀ {ns : List BString} {a : List ℕ}, D.Live a →
    D.way c = ns.reverse.map .string ++ D.way a → D.childAll a ns = some (D, c)
  | [], a, ha, hway => by rw [childAll, h.way_injective hc ha hway]
  | n :: ns, a, ha, hway => by
    have hsuffix : .string n :: D.way a <:+ D.way c := ⟨ns.reverse.map .string, by simp [hway]⟩
    obtain ⟨i, hi, hd⟩ := h.exists_key ha hc hsuffix
    have hposition : D.position a n = some i := by
      cases hj : D.position a n with
      | none => exact absurd hd (h.position_none hj i)
      | some j => rw [h.key_injective (key_of_position hj) hd]
    have hchild : D.child a n = some (D, i :: a) := by
      rw [child, give, if_pos (h.string hd), Option.map_some, NodeTree.enter, hposition]
    rw [childAll, hchild, Option.bind_some]
    exact h.childAll_eq hc (hc.of_suffix hi) (by rw [hway, way, hd]; simp)

end NodeTree

/-! ### What is left -/

/-- The file holds a tree with these properties. -/
structure Keeps (J : JSONDatabase) (L : Locale) (types : List BString → JSONType)
    (S : Set (List BString)) (D : NodeTree) (C : Content) :
    Prop where
  stands : Stands J L D C
  typed : D.Typed types
  names : ∀ {c}, D.Live c → ∃ ns ∈ S, D.way c = ns.reverse.map .string
  live : ∀ {ns}, ns ∈ S → ∃ c, D.Live c ∧ D.way c = ns.reverse.map .string
  plain : ∀ {ns}, ns ∈ S → ∀ n ∈ ns, isHttp L (.string n) = false

namespace Keeps

variable {J : JSONDatabase} {L : Locale} {types : List BString → JSONType} {S : Set (List BString)}
    {D D' : NodeTree} {C C' : Content}
  {a b : List ℕ} {q : Path} {name : BString} {names : List BString}

theorem mem_iff (h : Keeps J L types S D C) {ns : List BString} : ns ∈ S ↔ ∃ a, D.Live a ∧
    D.way a = ns.reverse.map .string := by
  constructor
  · exact h.live
  · rintro ⟨a, ha, hway⟩
    obtain ⟨ms, hms, he⟩ := h.names ha
    rwa [NodeTree.names_injective (hway.symm.trans he)]

theorem simple (h : Keeps J L types S D C) (htypes : ∀ ns, types ns ≠ .string ∧ types ns ≠ .array) :
    D.Simple L := by
  have htype : ∀ {c τ}, D.type c = some τ → ∃ ns, τ = types ns := by
    intro c τ hτ
    have hc : D.Live c := h.typed.sound.live (by rw [hτ]; rfl)
    obtain ⟨ns, -, hns⟩ := h.names hc
    rcases h.typed.type hc hns with hnone | hsome
    · rw [hnone] at hτ
      cases hτ
    · exact ⟨ns, Option.some.inj (hτ.symm.trans hsome)⟩
  constructor
  case plain =>
    intro a i c hi
    obtain ⟨ns, hns, hway⟩ := h.names (h.typed.sound.live_of_key hi)
    have hmem : c ∈ D.way (i :: a) := by
      rw [NodeTree.way, hi]
      exact List.mem_cons_self
    rw [hway] at hmem
    obtain ⟨n, hn, rfl⟩ := List.mem_map.mp hmem
    exact h.plain hns n (List.mem_reverse.mp hn)
  case string =>
    intro c hc
    obtain ⟨ns, hns⟩ := htype hc
    exact (htypes ns).1 hns.symm
  case array =>
    intro c hc
    obtain ⟨ns, hns⟩ := htype hc
    exact (htypes ns).2 hns.symm

/-- An access adds the properties on its way. -/
theorem access (h : Keeps J L types S D C) (hr : Reaches J L D C [] names D' C' b q)
    (htyped : D'.Typed types)
    (hplain : ∀ n ∈ names, isHttp L (.string n) = false) :
    Keeps J L types {ns | ns ∈ S ∨ ns <+: names} D' C' where
  stands := hr.stands
  typed := htyped
  names {c} hc := by
    rcases hr.made c hc with hc | hcb
    · obtain ⟨ns, hns, hway⟩ := h.names hc
      exact ⟨ns, Or.inl hns, (hr.way hc).trans hway⟩
    · have hsuffix := NodeTree.way_isSuffix (D := D') hcb
      rw [hr.names, NodeTree.way, List.append_nil] at hsuffix
      obtain ⟨ns, hns, hway⟩ := NodeTree.exists_names_of_isSuffix hsuffix
      exact ⟨ns, Or.inr hns, hway⟩
  live {ns} hns := by
    rcases hns with hns | hns
    · obtain ⟨c, hc, hway⟩ := h.live hns
      exact ⟨c, hr.live hc, (hr.way hc).trans hway⟩
    · have hsuffix : ns.reverse.map .string <:+ D'.way b := by
        rw [hr.names, NodeTree.way, List.append_nil]
        exact NodeTree.names_isPrefix_iff.mpr hns
      obtain ⟨c, hcb, hway⟩ := NodeTree.exists_of_way_isSuffix hsuffix
      exact ⟨c, (hr.stands.holds.live_of_place hr.node).of_suffix hcb, hway⟩
  plain {ns} hns n hn := by
    rcases hns with hns | hns
    · exact h.plain hns n hn
    · exact hplain n (hns.subset hn)

theorem live_of_deleted {nodes nodes' : List (List ℕ)} {i : ℕ}
    (hd : Deleted J L D C nodes a i D' C' nodes') :
    ∀ c, D'.Live c ↔ D.Live c ∧ ¬ i :: a <:+ c := by
  intro c
  constructor
  · refine fun hc => ⟨NodeTree.live_of_sub hd.sub hc, fun hs => ?_⟩
    have hsome := (hc.of_suffix hs).2
    rw [hd.gone] at hsome
    cases hsome
  · rintro ⟨hc, hs⟩
    induction c with
    | nil => trivial
    | cons j c ih =>
      refine ⟨ih hc.1 fun hic => hs (hic.trans (List.suffix_cons j c)), ?_⟩
      rw [hd.key j hs]
      exact hc.2

/-- What is deleted takes what is below it with it. -/
theorem delete {nodes nodes' : List (List ℕ)} {i : ℕ} (h : Keeps J L types S D C)
    (hall : ∀ c, D.Live c → c ∈ nodes)
    (hd : Deleted J L D C nodes a i D' C' nodes') (hi : D.key a i = some (.string name))
    (ha : D.way a = names.reverse.map .string) :
    Keeps J L types {ns | ns ∈ S ∧ ¬ names ++ [name] <+: ns} D' C' where
  stands :=
    ⟨nodes', hd.indexed, fun c hc => (hd.mem c).mpr ⟨hall c (NodeTree.live_of_sub hd.sub hc), hc⟩⟩
  typed := by
    refine ⟨hd.indexed.sound, fun {c ns} hc hway => ?_⟩
    rw [NodeTree.way_of_sub hd.sub hc] at hway
    cases hτ : D'.type c with
    | none => exact Or.inl rfl
    | some τ =>
      rcases h.typed.type (NodeTree.live_of_sub hd.sub hc) hway with hnone | hsome
      · cases hnone.symm.trans (hd.subType hτ)
      · exact Or.inr (by rw [← hd.subType hτ, hsome])
  names {c} hc := by
    obtain ⟨hold, hs⟩ := (live_of_deleted hd c).mp hc
    obtain ⟨ns, hns, hway⟩ := h.names hold
    exact ⟨ns, ⟨hns, fun hpre => hs ((h.typed.sound.isSuffix_iff hi ha hold hway).mpr hpre)⟩,
      (NodeTree.way_of_sub hd.sub hc).trans hway⟩
  live {ns} hns := by
    obtain ⟨c, hc, hway⟩ := h.live hns.1
    have hc' : D'.Live c :=
      (live_of_deleted hd c).mpr
        ⟨hc, fun hs => hns.2 ((h.typed.sound.isSuffix_iff hi ha hc hway).mp hs)⟩
    exact ⟨c, hc', (NodeTree.way_of_sub hd.sub hc').trans hway⟩
  plain hns := h.plain hns.1

/-- The tree is there as long as only loose spots change. -/
theorem of_sameBut (h : Keeps J L types S D C) (hs : C.SameBut Spot.Loose C') :
    Keeps J L types S D C' := by
  obtain ⟨nodes, hnodes, hall⟩ := h.stands
  have haside : C.SameBut Spot.Aside C' := hs.mono fun _ => Spot.Loose.aside
  have hbounds : Bounds L D C' := by
    intro x k
    rw [hs.place (by simp), hnodes.bounds, haside.index]
    simp only [hs.place (show ¬ (Spot.node _ .self).Loose by simp)]
  have hwords : Words L D C' nodes := hnodes.counts.of_same (fun _ => Iff.rfl) haside.index
    (fun _ => rfl)
    (fun s hw => hs.place hw.not_loose) fun s hw => hs.data hw.not_loose
  exact { h with stands := ⟨nodes, ⟨hnodes.toHolds.of_sameBut haside, hbounds, hwords⟩, hall⟩ }

end Keeps

namespace JSON

variable {J : JSONDatabase} {L : Locale} {types : List BString → JSONType} {S : Set (List BString)}
    {D : NodeTree} {F : File}
  {a : List ℕ} {p : Path} {name : BString} {names : List BString}

/-- A property that is not there is left alone. -/
theorem meets_deleteProperty_of_none (h : Holds J D F.content)
    (hp : F.content.place (.node a .self) = some p.index)
    (hnone : ∀ i, D.key a i ≠ some (.string name)) :
    Meets (fun fuel => deleteProperty J L fuel p name) F fun _ F' =>
      F.content.SameBut Spot.Loose F'.content := by
  refine Meets.step ?_ fun fuel => deleteProperty.eq_2 J L p name fuel
  refine Meets.bind (meets_contains h hp) ?_
  rintro b F' - ⟨hsame, hb⟩
  cases b with
  | false => exact Meets.ret hsame
  | true =>
    obtain ⟨i, hi⟩ := hb.mp rfl
    exact absurd hi (hnone i)

/-- A deletion leaves the properties that are not below the deleted one. -/
theorem meets_delete (h : Keeps J L types S D F.content)
    (htypes : ∀ ns, types ns ≠ .string ∧ types ns ≠ .array)
    (hp : F.content.place (.node a .self) = some p.index)
    (ha : D.way a = names.reverse.map .string) :
    Meets (fun fuel => deleteProperty J L fuel p name) F fun _ F' =>
      ∃ D', Keeps J L types {ns | ns ∈ S ∧ ¬ names ++ [name] <+: ns} D' F'.content := by
  obtain ⟨nodes, hnodes, hall⟩ := h.stands
  have hlive : D.Live a := hnodes.live_of_place hp
  by_cases hkey : ∃ i, D.key a i = some (.string name)
  · obtain ⟨i, hi⟩ := hkey
    have hdeep : Deep D nodes a (Path.depth F.db) := by
      refine ⟨fun c hc _ => ?_, fun c hc _ _ => hall c hc⟩
      obtain ⟨j, hj⟩ := hnodes.exists_place hc
      have hlength := File.length_lt_depth hj
      omega
    refine (meets_deleteProperty hnodes (h.simple htypes) hp hi hdeep).mono ?_
    rintro _ F' - ⟨D', nodes', hd⟩
    exact ⟨D', h.delete hall hd hi ha⟩
  · have hnone : ∀ i, D.key a i ≠ some (.string name) := fun i hi => hkey ⟨i, hi⟩
    refine (meets_deleteProperty_of_none hnodes.toHolds hp hnone).mono ?_
    rintro _ F' - hsame
    refine ⟨D, ?_⟩
    have hset : {ns | ns ∈ S ∧ ¬ names ++ [name] <+: ns} = S := by
      refine Set.sep_eq_self_iff_mem_true.mpr fun ns hns => ?_
      obtain ⟨c, hc, hway⟩ := h.live hns
      exact h.typed.sound.not_isPrefix hnone hlive ha hc hway
    rw [hset]
    exact h.of_sameBut hsame

theorem meets_request {r : Request} (h : Keeps J L types S D F.content)
    (htypes : ∀ ns, types ns ≠ .string ∧ types ns ≠ .array)
    (hr : r.Fits L types) : Meets (fun fuel => request J L fuel r) F fun _ F' => ∃ D',
      Keeps J L types (r.keeps S) D' F'.content := by
  obtain ⟨⟨D₁, b⟩, haccess, htyped⟩ := h.typed.access hr.access
  refine Meets.bind (meets_access h.stands haccess) ?_
  rintro p F₁ - h₁
  have hkeeps := h.access h₁ htyped hr.plain
  cases hdeleted : r.deleted with
  | none =>
    refine Meets.ret ⟨D₁, ?_⟩
    have hset : r.keeps S = {ns | ns ∈ S ∨ ns <+: r.access.names} := by
      simp [Request.keeps, hdeleted]
    rwa [hset]
  | some name =>
    refine (meets_delete hkeeps htypes h₁.node
      (by rw [h₁.names, NodeTree.way, List.append_nil])).mono ?_
    rintro _ F' - ⟨D', h'⟩
    refine ⟨D', ?_⟩
    have hset : r.keeps S = {ns | ns ∈ {ns | ns ∈ S ∨ ns <+: r.access.names} ∧
      ¬ r.access.names ++ [name] <+: ns} := by
      simp [Request.keeps, hdeleted]
    rwa [hset]

theorem meets_requestAll (htypes : ∀ ns, types ns ≠ .string ∧ types ns ≠ .array) :
    ∀ {rs : List Request} {S : Set (List BString)}
    {D : NodeTree} {F : File}, Keeps J L types S D F.content → (∀ r ∈ rs, r.Fits L types) →
      Meets (fun fuel => requestAll J L fuel rs) F fun _ F' =>
        ∃ D', Keeps J L types (rs.foldl (fun S r => r.keeps S) S) D' F'.content := by
  intro rs
  induction rs with
  | nil => exact fun {S D F} h _ => Meets.ret ⟨D, h⟩
  | cons r rs ih =>
    intro S D F h hrs
    refine Meets.bind (meets_request h htypes (hrs r List.mem_cons_self)) ?_
    rintro _ F₁ - ⟨D₁, h₁⟩
    exact ih h₁ fun s hs => hrs s (List.mem_cons_of_mem r hs)

end JSON

/-! ### Runs -/

/-- The requests to a new database. -/
def JSONDatabase.runRequests (L : Locale) (rs : List Request) (fuel : ℕ) :
    DatabaseM JSONDatabase := do
  let J ← new
  JSON.requestAll J L fuel rs
  return J

theorem Keeps.of_fresh {J : JSONDatabase} {C : Content} (L : Locale)
    (types : List BString → JSONType) (h : Fresh J C) :
    Keeps J L types {[]} .empty C where
  stands := h.stands L
  typed := ⟨NodeTree.sound_empty, fun _ _ => Or.inl rfl⟩
  names {c} hc := by
    obtain rfl := (NodeTree.live_empty c).mp hc
    exact ⟨[], rfl, rfl⟩
  live {ns} hns := by
    obtain rfl := Set.mem_singleton_iff.mp hns
    exact ⟨[], trivial, rfl⟩
  plain {ns} hns n hn := by
    obtain rfl := Set.mem_singleton_iff.mp hns
    cases hn

theorem JSONDatabase.meets_runRequests (L : Locale) {rs : List Request}
    (h : Request.Consistent L rs) :
    Meets (fun fuel => runRequests L rs fuel) File.create fun J F => ∃ types D,
      Keeps J L types (Request.kept rs) D F.content := by
  obtain ⟨types, htypes, hrs⟩ := h
  refine Meets.bind meets_new ?_
  rintro J F₁ - h₁
  refine Meets.bind (JSON.meets_requestAll htypes (.of_fresh L types h₁) hrs) ?_
  rintro _ F₂ - h₂
  exact Meets.ret ⟨types, h₂⟩

theorem Request.consistent_of_none {L : Locale} (rs : List Request)
    (h : ∀ r ∈ rs, r.access.type = none)
    (hascii : ∀ r ∈ rs, ∀ n ∈ r.access.names, ∀ b ∈ n, b < 0x80)
    (hplain : ∀ r ∈ rs, ∀ n ∈ r.access.names, isHttp L (.string n) = false) :
    Request.Consistent L rs := by
  refine ⟨fun _ => .object, fun _ => ⟨by simp, by simp⟩, fun r hr => ?_⟩
  refine ⟨⟨fun n hn => Utf8.isUtf8_ascii (hascii r hr n hn), fun {τ} hτ => ?_, fun _ => rfl⟩,
    hplain r hr⟩
  rw [h r hr] at hτ
  cases hτ

/-- A property that was made and has not been deleted since is found, and it
contains exactly the properties below it of which the same is true. -/
theorem JSONDatabase.runRequests_contains (L : Locale) {rs : List Request}
    (h : Request.Consistent L rs) :
    ∃ (J : JSONDatabase) (db : Database),
      Returns (fun fuel => (runRequests L rs fuel).run .create) (J, db) ∧
      ∀ ns ∈ Request.kept rs, ∃ (p : Path) (db' : Database),
        Returns (fun fuel => (JSON.childAll J L fuel J.json ns).run db) (p, db') ∧
        ∀ name, ∃ b db'', (JSON.contains J p name).run db' = some (b, db'') ∧
          (b = true ↔ ns ++ [name] ∈ Request.kept rs) := by
  obtain ⟨J, F, hrun, -, types, D, hD⟩ := meets_runRequests L h
  refine ⟨J, F.db, hrun, fun ns hns => ?_⟩
  obtain ⟨c, hc, hway⟩ := hD.live hns
  have hchildAll : D.childAll [] ns = some (D, c) :=
    hD.typed.sound.childAll_eq hc trivial (by rw [hway, NodeTree.way, List.append_nil])
  obtain ⟨p, F', hp, -, hreaches⟩ := JSON.meets_childAll hD.stands hD.stands.holds.json hchildAll
  refine ⟨p, F'.db, hp, fun name => ?_⟩
  obtain ⟨b, db'', hb, hiff⟩ := JSON.exists_contains hreaches.stands.holds hreaches.node name
  refine ⟨b, db'', hb, hiff.trans ?_⟩
  rw [hD.mem_iff]
  constructor
  · rintro ⟨i, hi⟩
    exact ⟨i :: c, hD.typed.sound.live_of_key hi, by rw [NodeTree.way, hi, hway]; simp⟩
  · rintro ⟨d, hd, hdway⟩
    by_contra hnone
    exact hD.typed.sound.not_isPrefix (fun i hi => hnone ⟨i, hi⟩) hc hway hd hdway
      (List.prefix_refl _)

theorem JSONDatabase.runRequests_contains_two :
    ∃ (J : JSONDatabase) (db : Database) (p : Path) (db' db'' : Database),
    Returns (fun fuel =>
      (runRequests .c [⟨⟨[text "a", text "b"], none⟩, none⟩, ⟨⟨[text "a"], none⟩, some (text "b")⟩]
        fuel).run .create)
      (J, db) ∧ Returns (fun fuel => (JSON.childAll J .c fuel J.json [text "a"]).run db) (p, db') ∧
        (JSON.contains J p (text "b")).run db' = some (false, db'') := by
  obtain ⟨J, db, hrun, hkept⟩ := runRequests_contains .c (Request.consistent_of_none
    [⟨⟨[text "a", text "b"], none⟩, none⟩, ⟨⟨[text "a"], none⟩, some (text "b")⟩] (by simp)
      (by decide +kernel) (by simp; decide +kernel))
  have hmem : [text "a"] ∈ Request.kept [⟨⟨[text "a", text "b"], none⟩, none⟩,
    ⟨⟨[text "a"], none⟩, some (text "b")⟩] := by
    refine ⟨Or.inr (List.prefix_refl _), fun name hname hpre => ?_⟩
    have hlength := hpre.length_le
    simp at hlength
  obtain ⟨p, db', hp, hcontains⟩ := hkept [text "a"] hmem
  obtain ⟨b, db'', hb, hiff⟩ := hcontains (text "b")
  cases b with
  | false => exact ⟨J, db, p, db', db'', hrun, hp, hb⟩
  | true => exact absurd (List.prefix_refl _) ((hiff.mp rfl).2 _ rfl)

end BeeFish
