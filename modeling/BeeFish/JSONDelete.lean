/-
# Deleting JSON properties

A property that is deleted takes with it everything below its node: first its
words, then what stands below it, one property after the other while a walk
goes over the children, then its ids, and last the entries of the tables. A
name that no object has any more leaves the properties of the database. What
is left is the tree without the child, with its tables and indices exact
(`JSON.meets_deleteProperty`), and everything else stays where it was.

`clear` and `deleteProperty` call each other; the induction is on how deep the
tree is below the node. An id is taken out of the bounds of all ancestors, so
no other node may have the same one: there are no `{HTTP}` properties here, and
an id ends with the index of its node (`Holds.id_injective`).

Key definitions: `NodeTree.bare`, `NodeTree.unlink`, `NodeTree.Simple`,
`Content.Unlinked`, `Within`, `Cleared`, `Deleted`.
-/
import BeeFish.JSONRemove
import BeeFish.Children

namespace BeeFish

open BitCode

/-! ### Ids -/

namespace NodeTree

variable {L : Locale} {D : NodeTree}

/-- No property is `{HTTP}`, which an id leaves out. -/
def Plain (L : Locale) (D : NodeTree) : Prop := ∀ a i c, D.key a i = some c → isHttp L c = false

theorem indexOf_steps (place : List ℕ → ℕ) (a : List ℕ) :
    JSONPath.indexOf (place []) (D.steps place a) = place a := by
  cases a <;> rfl

theorem Plain.redirect (h : D.Plain L) (place : List ℕ → ℕ) : ∀ {a : List ℕ}, D.Live a →
    redirect L (D.steps place a) = none
  | [], _ => rfl
  | [_], _ => rfl
  | [_, _], _ => rfl
  | i :: j :: k :: a, ha => by
    obtain ⟨c, hc⟩ := Option.isSome_iff_exists.mp ha.2
    have hrest := h.redirect place ha.1
    simp only [steps] at hrest ⊢
    rw [BeeFish.redirect, if_neg (by rw [hc, Option.getD_some, h _ _ _ hc]; simp)]
    exact hrest

/-- An id ends with the index of its node. -/
theorem Plain.getIndexFromId (h : D.Plain L) (place : List ℕ → ℕ) {a : List ℕ} (ha : D.Live a) :
    getIndexFromId (D.id L place a).bits = some (place a) := by
  show BeeFish.getIndexFromId (toKey L (D.node place a)) = _
  rw [getIndexFromId_eq]
  simp only [node]
  rw [resolve_of_none (h.redirect place ha), indexOf_steps]

end NodeTree

/-- No two nodes have the same id. -/
theorem Holds.id_injective {J : JSONDatabase} {L : Locale} {D : NodeTree} {F : File} {a b : List ℕ}
    (h : Holds J D F.content)
    (hplain : D.Plain L) (ha : D.Live a) (hb : D.Live b)
    (he : D.id L F.content.index a = D.id L F.content.index b) : a = b := by
  obtain ⟨i, hi⟩ := h.exists_place ha
  obtain ⟨j, hj⟩ := h.exists_place hb
  have hindex := (hplain.getIndexFromId F.content.index ha).symm.trans
    ((congrArg (fun k => getIndexFromId k.bits) he).trans
    (hplain.getIndexFromId F.content.index hb))
  rw [Content.index_of hi, Content.index_of hj] at hindex
  obtain rfl := Option.some.inj hindex
  have hnode := F.sound.inj hi hj
  cases hnode
  rfl

namespace JSON

variable {J : JSONDatabase} {L : Locale} {D : NodeTree}

/-- An id is taken out for the node and each of its ancestors but the root. -/
theorem meets_removeObjectFrom (key : Key) : ∀ {a : List ℕ} {F : File} {p : Path} {n : ℕ},
    Holds J D F.content →
    F.content.place (.node a .self) = some p.index → a.length < n →
      Meets (fun _ => removeObjectFrom J key n p) F fun _ F' =>
        F.content.SameBut Spot.OfBounds F'.content ∧
        ∀ x k, (F'.content.place (.objectId x k)).isSome ↔
          (F.content.place (.objectId x k)).isSome ∧
          ¬ (k = key ∧ ∃ c, c ≠ [] ∧ c <:+ a ∧ F.content.place (.node c .self) = some x) := by
  intro a
  induction a with
  | nil =>
    intro F p n h hp hn
    obtain ⟨n, rfl⟩ : ∃ k, n = k + 1 := ⟨n - 1, by omega⟩
    simp only [removeObjectFrom]
    rw [if_pos ((h.isRoot_iff hp).mpr rfl)]
    refine Meets.ret ⟨.refl _ _, fun x k => ?_⟩
    simp
  | cons i a ih =>
    intro F p n h hp hn
    obtain ⟨n, rfl⟩ : ∃ k, n = k + 1 := ⟨n - 1, by omega⟩
    simp only [removeObjectFrom]
    rw [if_neg fun hroot => by cases (h.isRoot_iff hp).mp hroot]
    refine Meets.bind (Path.meets_walk (t := .object p.index) rfl h.objects) ?_
    rintro o F₁ - ⟨h₁, -⟩
    refine Meets.bind (Path.meets_clearKey (t := .objectId p.index key) (s := .object p.index) rfl
      (by rw [h₁]; simp)) ?_
    rintro _ F₂ - h₂
    have hsame : F.content.SameBut Spot.OfBounds F₂.content := by
      rw [h₂, h₁]
      refine (Content.SameBut.make trivial _).trans (.drop fun t hu => ?_)
      rw [Spot.objectId_under.mp hu]
      trivial
    have hold := h.of_sameBut (hsame.mono fun s => Spot.OfBounds.aside)
    have hself : ∀ b, F₂.content.place (.node b .self) = F.content.place (.node b .self) :=
      fun b => hsame.place not_false
    refine Meets.bind (meets_parent hold (by rw [hself]; exact hp)) ?_
    rintro up F' - ⟨rfl, hup⟩
    refine (ih hold hup (by simpa using hn)).mono ?_
    rintro _ F₃ - ⟨hsame', hremove⟩
    refine ⟨hsame.trans hsame', fun x k => ?_⟩
    rw [hremove]
    simp only [hself]
    have hplace : (F'.content.place (.objectId x k)).isSome ↔
        (F.content.place (.objectId x k)).isSome ∧ ¬ (x = p.index ∧ k = key) := by
      rw [h₂]
      by_cases he : x = p.index ∧ k = key
      · rw [Content.drop_place_of (by rw [he.1, he.2]; exact Spot.under_refl _)]
        simp [he]
      · rw [Content.drop_place_of_not (by rw [Spot.objectId_under, Spot.objectId.injEq]; exact he),
          h₁,
          Content.make_place_of_ne (by simp)]
        simp [he]
    rw [hplace, and_assoc]
    refine and_congr_right fun _ => ?_
    rw [← not_or]
    refine not_congr ?_
    constructor
    · rintro (⟨rfl, rfl⟩ | ⟨rfl, c, hc, hca, hx⟩)
      · exact ⟨rfl, i :: a, by simp, List.suffix_refl _, hp⟩
      · exact ⟨rfl, c, hc, hca.trans (List.suffix_cons i a), hx⟩
    · rintro ⟨rfl, c, hc, hca, hx⟩
      rcases List.suffix_cons_iff.mp hca with rfl | hca
      · exact Or.inl ⟨Option.some.inj (hx.symm.trans hp), rfl⟩
      · exact Or.inr ⟨rfl, c, hc, hca, hx⟩

theorem meets_removeObject {a : List ℕ} {F : File} {p : Path} (h : Holds J D F.content)
    (hp : F.content.place (.node a .self) = some p.index) :
    Meets (fun _ => removeObject J L p) F fun _ F' => F.content.SameBut Spot.OfBounds F'.content ∧
      ∀ x k, (F'.content.place (.objectId x k)).isSome ↔ (F.content.place (.objectId x k)).isSome ∧
        x ≠ p.index ∧
        ¬ (k = D.id L F.content.index a ∧ ∃ c, c ≠ [] ∧ c <:+ a ∧
          F.content.place (.node c .self) = some x) := by
  refine Meets.bind (meets_id h hp) ?_
  rintro key F' - ⟨rfl, rfl⟩
  refine Meets.bind (meets_upwards (f := fun n => removeObjectFrom J _ n p)
    (meets_removeObjectFrom _ h hp (File.length_lt_depth hp))) ?_
  rintro _ F₁ - ⟨h₁, hremove⟩
  refine (Path.meets_clearKey (t := .object p.index) (s := .objects) rfl ?_).mono ?_
  · rw [h₁.place (by simp)]
    exact h.objects
  rintro _ F₂ - h₂
  refine ⟨?_, fun x k => ?_⟩
  · rw [h₂]
    refine h₁.trans (.drop fun t hu => ?_)
    rcases Spot.object_under.mp hu with rfl | ⟨k, rfl⟩ <;> trivial
  · rw [h₂]
    by_cases hx : x = p.index
    · rw [Content.drop_place_of (by rw [hx]; exact Spot.object_under.mpr (Or.inr ⟨k, rfl⟩))]
      simp [hx]
    · rw [Content.drop_place_of_not (by rw [Spot.object_under]; simp [hx]), hremove]
      simp [hx]

end JSON

/-! ### A node without type -/

namespace NodeTree

variable {D : NodeTree} {a b c : List ℕ} {i : ℕ}

/-- A node without its type and its positions. -/
def bare (D : NodeTree) (b : List ℕ) : NodeTree where
  type := Function.update D.type b none
  key := D.key
  count := Function.update D.count b 0

theorem bare_type_self : (D.bare b).type b = none := Function.update_self ..

theorem bare_type_of_ne (h : c ≠ b) : (D.bare b).type c = D.type c := Function.update_of_ne h ..

theorem bare_count_self : (D.bare b).count b = 0 := Function.update_self ..

theorem bare_count_of_ne (h : c ≠ b) : (D.bare b).count c = D.count c := Function.update_of_ne h ..

theorem live_bare : ∀ c, (D.bare b).Live c ↔ D.Live c
  | [] => Iff.rfl
  | _ :: c => and_congr (live_bare c) Iff.rfl

/-- What is below a node is below one of its children. -/
theorem exists_key_of_live : ∀ {c : List ℕ}, D.Live c → b <:+ c → c ≠ b → ∃ i, (D.key b i).isSome
  | [], _, hbc, hne => absurd (List.suffix_nil.mp hbc).symm hne
  | i :: c, hc, hbc, hne => by
    have hbc : b <:+ c := (List.suffix_cons_iff.mp hbc).resolve_left fun he => hne he.symm
    by_cases he : c = b
    · exact ⟨i, he ▸ hc.2⟩
    · exact exists_key_of_live hc.1 hbc he

theorem not_isSuffix_of_live (hkeys : ∀ i, D.key b i = none) (hc : D.Live c) (hne : c ≠ b) :
    ¬ b <:+ c := by
  intro hbc
  obtain ⟨i, hi⟩ := exists_key_of_live hc hbc hne
  rw [hkeys] at hi
  cases hi

theorem Sound.bare (h : D.Sound) (hkeys : ∀ i, D.key b i = none) : (D.bare b).Sound where
  inj := h.inj
  le {c i d} hd := by
    have hne : c ≠ b := by
      rintro rfl
      cases (hkeys i).symm.trans hd
    rw [bare_count_of_ne hne]
    exact h.le hd
  string {c i p} hp := by
    have hne : c ≠ b := by
      rintro rfl
      cases (hkeys i).symm.trans hp
    rw [bare_type_of_ne hne]
    exact h.string hp
  integer {c i j} hj := by
    have hne : c ≠ b := by
      rintro rfl
      cases (hkeys i).symm.trans hj
    rw [bare_type_of_ne hne]
    exact h.integer hj
  live {c} hc := by
    rw [live_bare]
    by_cases he : c = b
    · rw [he, bare_type_self] at hc
      cases hc
    · rw [bare_type_of_ne he] at hc
      exact h.live hc
  undefined c := by
    by_cases he : c = b
    · rw [he, bare_type_self]
      simp
    · rw [bare_type_of_ne he]
      exact h.undefined c

end NodeTree

/-- What stands below a node. -/
def Spot.Below (s : Spot) (b : List ℕ) : Prop := (node b .self).Under s ∧ s ≠ node b .self

/-- The content without what is below a node, and without its type. -/
noncomputable def Content.bare (C : Content) (b : List ℕ) : Content :=
  (C.drop (Spot.Below · b)).put (.node b .self) none

section

variable {J : JSONDatabase} {L : Locale} {D : NodeTree} {C C' : Content} {b c : List ℕ} {n : ℕ}
    {nodes : List (List ℕ)}

variable {s : Spot}

theorem Content.bare_place_of (hs : s.Below b) : (C.bare b).place s = none :=
  drop_place_of (P := (Spot.Below · b)) hs

theorem Content.bare_place_of_not (hs : ¬ s.Below b) : (C.bare b).place s = C.place s :=
  drop_place_of_not (P := (Spot.Below · b)) hs

theorem Content.bare_place (hs : ∀ c part, b <:+ c → s ≠ Spot.node c part) :
    (C.bare b).place s = C.place s := by
  refine bare_place_of_not ?_
  rintro ⟨hu, -⟩
  obtain ⟨c, part, hbc, he⟩ := Spot.self_under.mp hu
  exact hs c part hbc he

theorem Content.bare_data (hs : ∀ c part, b <:+ c → s ≠ Spot.node c part) :
    (C.bare b).data s = C.data s := by
  have hne : s ≠ .node b .self := hs b .self (List.suffix_refl b)
  refine (Content.put_data_of_ne hne _).trans (Content.drop_data_of_not ?_)
  rintro ⟨hu, -⟩
  obtain ⟨c, part, hbc, he⟩ := Spot.self_under.mp hu
  exact hs c part hbc he

theorem Content.bare_data_self : (C.bare b).data (.node b .self) = none := Content.put_data_self ..

/-- Nothing stands below a node without keys. -/
theorem Holds.bare_place_self (h : Holds J D C) (hkeys : ∀ i, D.key b i = none) (c : List ℕ) :
    (C.bare b).place (.node c .self) = C.place (.node c .self) := by
  by_cases hdrop : (Spot.node c .self).Below b
  · refine (Content.bare_place_of hdrop).trans ?_
    obtain ⟨hu, hne⟩ := hdrop
    have hnot : ¬ D.Live c := fun hc =>
      NodeTree.not_isSuffix_of_live hkeys hc (fun he => hne (by rw [he])) (Spot.node_under.mp hu)
    rw [← h.live, Option.not_isSome_iff_eq_none] at hnot
    exact hnot.symm
  · exact Content.bare_place_of_not hdrop

theorem Holds.bare (h : Holds J D C) (hC : C.Sound n) (hkeys : ∀ i, D.key b i = none) :
    Holds J (D.bare b) (C.bare b) := by
  have hself := h.bare_place_self hkeys
  have hnot : ∀ {c i d}, D.key c i = some d → ∀ c' part part', b <:+ c' →
    Spot.node c part ≠ .node c' part' := by
    rintro c i d hd c' part part' hbc he
    cases he
    refine NodeTree.not_isSuffix_of_live hkeys (h.sound.live_of_key hd).1 ?_ hbc
    rintro rfl
    cases (hkeys i).symm.trans hd
  have hproperty : ∀ p, (C.bare b).place (.property p) = C.place (.property p) :=
    fun p => Content.bare_place (by simp)
  constructor
  case sound => exact h.sound.bare hkeys
  case json => rw [hself]; exact h.json
  case properties => rw [Content.bare_place (by simp)]; exact h.properties
  case words => rw [Content.bare_place (by simp)]; exact h.words
  case objects => rw [Content.bare_place (by simp)]; exact h.objects
  case live => intro c; rw [hself, h.live, NodeTree.live_bare]
  case type =>
    intro c
    by_cases he : c = b
    · rw [he, Content.bare_data_self, NodeTree.bare_type_self]
      rfl
    · rw [NodeTree.bare_type_of_ne he]
      by_cases hbc : b <:+ c
      · have hdrop : (Spot.node c .self).Below b :=
          ⟨Spot.node_under.mpr hbc, by simpa using he⟩
        rw [Content.bare, Content.put_data_of_ne hdrop.2, Content.drop_data_of hdrop]
        have hnone : D.type c = none := by
          by_contra hsome
          exact NodeTree.not_isSuffix_of_live hkeys
            (h.sound.live (Option.isSome_iff_ne_none.mpr hsome)) he hbc
        rw [hnone]
        rfl
      · rw [Content.bare_data (by rintro c' part hbc' he'; cases he'; exact hbc hbc')]
        exact h.type c
  case count =>
    intro c
    by_cases hbc : b <:+ c
    · have hdrop : (Spot.node c .children).Below b :=
        ⟨Spot.node_under.mpr hbc, by simp⟩
      rw [Content.bare, Content.put_data_of_ne hdrop.2, Content.drop_data_of hdrop]
      by_cases he : c = b
      · rw [he, NodeTree.bare_count_self]
        rfl
      · have hcount := h.count c
        have hdead : C.place (.node c .self) = none := by
          rw [← Option.not_isSome_iff_eq_none, h.live]
          exact fun hc => NodeTree.not_isSuffix_of_live hkeys hc he hbc
        have hbelow : (Spot.node c .self).Under (.node c .children) :=
          Spot.node_under.mpr (List.suffix_refl c)
        rw [hC.data (hC.closed hbelow hdead)] at hcount
        rw [NodeTree.bare_count_of_ne he]
        exact hcount
    · have hne : c ≠ b := fun he => hbc (he ▸ List.suffix_refl c)
      rw [Content.bare_data (by rintro c' part hbc' he'; cases he'; exact hbc hbc'),
        NodeTree.bare_count_of_ne hne]
      exact h.count c
  case entry =>
    intro c i p hp
    obtain ⟨x, hx, hentry, hposition⟩ := h.entry hp
    refine ⟨x, by rw [hproperty, hx], ?_, ?_⟩
    · rw [Content.bare_data fun c' part hbc => hnot hp c' _ part hbc, hentry]
    · rw [Content.bare_data fun c' part hbc => hnot hp c' _ part hbc, hposition]
  case only =>
    intro c x hx
    have hdrop : ¬ (Spot.node c (.property x)).Below b := by
      intro hdrop
      rw [Content.bare_place_of hdrop] at hx
      cases hx
    rw [Content.bare_place_of_not hdrop] at hx
    obtain ⟨i, p, hp, hpx⟩ := h.only hx
    exact ⟨i, p, hp, by rw [hproperty, hpx]⟩
  case used =>
    intro p hp
    rw [hproperty] at hp
    exact h.used hp
  case user =>
    intro p x
    rw [Content.bare_place (by simp), h.user]
    simp only [hself]
    rfl

/-- The bounds without the id of a node are those of the tree without its
type, as no other node has the id. -/
theorem Bounds.bare (hbounds : Bounds L D C) (h : Holds J D C) (hkeys : ∀ i, D.key b i = none)
    (hb : C.place (.node b .self) = some n)
    (hinj : ∀ {s t j}, C.place s = some j → C.place t = some j → s = t)
    (hid : ∀ c, D.Live c → D.id L C.index c = D.id L C.index b → c = b)
    (hself : ∀ c, C'.place (.node c .self) = C.place (.node c .self))
    (hobject : ∀ x k, (C'.place (.objectId x k)).isSome ↔ (C.place (.objectId x k)).isSome ∧ x ≠ n ∧
      ¬ (k = D.id L C.index b ∧ ∃ c, c ≠ [] ∧ c <:+ b ∧ C.place (.node c .self) = some x)) : Bounds
        L (D.bare b) C' := by
  have hindex : C'.index = C.index := funext fun c => by rw [Content.index, Content.index, hself]
  have hsame : ∀ c, (D.bare b).id L C.index c = D.id L C.index c :=
    fun c => NodeTree.SameWay.id L ⟨fun _ => rfl, fun _ => rfl⟩
  intro x k
  rw [hobject, hbounds, hindex]
  simp only [hself, hsame]
  constructor
  · rintro ⟨⟨c, d, hc, hx, hcd, hd, rfl⟩, hxn, hnot⟩
    refine ⟨c, d, hc, hx, hcd, ?_, rfl⟩
    rwa [NodeTree.bare_type_of_ne]
    rintro rfl
    exact hnot ⟨rfl, c, hc, hcd, hx⟩
  · rintro ⟨c, d, hc, hx, hcd, hd, rfl⟩
    have hdb : d ≠ b := by
      rintro rfl
      rw [NodeTree.bare_type_self] at hd
      cases hd
    rw [NodeTree.bare_type_of_ne hdb] at hd
    have hlive := h.sound.live hd
    refine ⟨⟨c, d, hc, hx, hcd, hd, rfl⟩, ?_, fun hk => hdb (hid d hlive hk.1)⟩
    rintro rfl
    have hnode := hinj hx hb
    cases hnode
    exact NodeTree.not_isSuffix_of_live hkeys hlive hdb hcd

end

/-! ### A child that is gone -/

namespace NodeTree

variable {D : NodeTree} {a c : List ℕ} {i j : ℕ}

/-- The tree without the child at a position. -/
def unlink (D : NodeTree) (a : List ℕ) (i : ℕ) : NodeTree where
  type := D.type
  key c j := if c = a ∧ j = i then none else D.key c j
  count := D.count

theorem unlink_key {d : Component} : (D.unlink a i).key c j = some d ↔ D.key c j = some d ∧
    ¬ (c = a ∧ j = i) := by
  unfold unlink
  dsimp only
  split_ifs with he <;> simp [he]

theorem unlink_key_of_ne (h : j :: c ≠ i :: a) : (D.unlink a i).key c j = D.key c j := by
  refine if_neg ?_
  rintro ⟨rfl, rfl⟩
  exact h rfl

/-- A child without children takes nothing else with it. -/
theorem live_unlink (hkeys : ∀ j, D.key (i :: a) j = none) : ∀ c, (D.unlink a i).Live c ↔
    D.Live c ∧ c ≠ i :: a
  | [] => by simp [Live]
  | j :: c => by
    rw [Live, live_unlink hkeys c, Live]
    constructor
    · rintro ⟨⟨hc, -⟩, hj⟩
      obtain ⟨d, hd⟩ := Option.isSome_iff_exists.mp hj
      obtain ⟨hd, hne⟩ := unlink_key.mp hd
      refine ⟨⟨hc, by rw [hd]; rfl⟩, fun he => hne ?_⟩
      obtain ⟨rfl, rfl⟩ := List.cons.inj he
      exact ⟨rfl, rfl⟩
    · rintro ⟨⟨hc, hj⟩, hne⟩
      refine ⟨⟨hc, ?_⟩, by rwa [unlink_key_of_ne hne]⟩
      rintro rfl
      rw [hkeys] at hj
      cases hj

theorem Sound.unlink (h : D.Sound) (hkeys : ∀ j, D.key (i :: a) j = none)
    (hnone : D.type (i :: a) = none) : (D.unlink a i).Sound where
  inj hi hj := h.inj (unlink_key.mp hi).1 (unlink_key.mp hj).1
  le hc := h.le (unlink_key.mp hc).1
  string hp := h.string (unlink_key.mp hp).1
  integer hj := h.integer (unlink_key.mp hj).1
  live {c} hc := by
    refine (live_unlink hkeys c).mpr ⟨h.live hc, ?_⟩
    rintro rfl
    rw [show (D.unlink a i).type (i :: a) = D.type (i :: a) from rfl, hnone] at hc
    cases hc
  undefined := h.undefined

/-- The ways of the other nodes stay. -/
theorem SameWay.unlink {place place' : List ℕ → ℕ} (hkeys : ∀ j, D.key (i :: a) j = none)
    (hc : (D.unlink a i).Live c)
    (hplace : ∀ c, c ≠ i :: a → place' c = place c) : SameWay D (D.unlink a i) place place' c where
  key {d j} hd := by
    refine unlink_key_of_ne fun he => ?_
    exact ((live_unlink hkeys _).mp (hc.of_suffix hd)).2 he
  place {d} hd := hplace d ((live_unlink hkeys _).mp (hc.of_suffix hd)).2

end NodeTree

/-- The object at `a` loses the property `name`, whose index is `x`, at its
position `i`. -/
structure Content.Unlinked (C C' : Content) (a : List ℕ) (name : BString) (i x : ℕ) : Prop where
  same : C.SameBut (fun s => s.Loose ∨ s = .property name ∨ (∃ y, s = .user name y) ∨
    s = .node a (.property x) ∨
    (Spot.node (i :: a) .self).Under s) C'
  property : ∀ {y}, C'.place (.property name) = some y → C.place (.property name) = some y
  last : (C'.place (.property name)).isSome ↔ ∃ y, (C'.place (.user name y)).isSome
  user : ∀ y, (C'.place (.user name y)).isSome ↔ (C.place (.user name y)).isSome ∧ y ≠ C.index a
  entry : C'.place (.node a (.property x)) = none
  gone : ∀ {s}, (Spot.node (i :: a) .self).Under s → C'.place s = none ∧ C'.data s = none

section

variable {J : JSONDatabase} {L : Locale} {D : NodeTree} {C C' : Content} {a c : List ℕ} {i x : ℕ}
    {name : BString}
  {nodes : List (List ℕ)}

theorem Content.Unlinked.place_self (h : C.Unlinked C' a name i x) (hc : ¬ i :: a <:+ c) :
    C'.place (.node c .self) = C.place (.node c .self) :=
  h.same.place (by simpa [Spot.node_under] using hc)

theorem Content.Unlinked.index (hu : C.Unlinked C' a name i x) (h : Holds J D C)
    (hkeys : ∀ j, D.key (i :: a) j = none) :
    ∀ c, c ≠ i :: a → C'.index c = C.index c := by
  intro c hne
  by_cases hc : i :: a <:+ c
  · have hdead : C.place (.node c .self) = none := by
      rw [← Option.not_isSome_iff_eq_none, h.live]
      exact fun hlive => NodeTree.not_isSuffix_of_live hkeys hlive hne hc
    rw [Content.index, Content.index, hdead, (hu.gone (Spot.node_under.mpr hc)).1]
  · rw [Content.index, Content.index, hu.place_self hc]

theorem Holds.unlink (h : Holds J D C)
    (hinj : ∀ {s t j}, C.place s = some j → C.place t = some j → s = t)
    (hu : C.Unlinked C' a name i x) (hi : D.key a i = some (.string name))
    (hx : C.place (.property name) = some x)
    (hkeys : ∀ j, D.key (i :: a) j = none) (hnone : D.type (i :: a) = none)
    (hcount : D.count (i :: a) = 0)
    (hbelow : ∀ c, i :: a <:+ c → D.type c = none ∧ D.count c = 0) : Holds J (D.unlink a i) C' := by
  have hroot : ∀ c, i :: a <:+ c → c ≠ [] := by
    rintro c hc rfl
    cases List.suffix_nil.mp hc
  have hsuffix : ∀ {c j d}, (D.unlink a i).key c j = some d → ¬ i :: a <:+ c := by
    intro c j d hd hc
    obtain ⟨hd, -⟩ := NodeTree.unlink_key.mp hd
    by_cases he : c = i :: a
    · rw [he, hkeys] at hd
      cases hd
    · exact NodeTree.not_isSuffix_of_live hkeys (h.sound.live_of_key hd).1 he hc
  -- the name stays as long as an object has it
  have hproperty : ∀ {c j p y}, (D.unlink a i).key c j = some (.string p) →
    C.place (.property p) = some y →
      C'.place (.property p) = some y := by
    intro c j p y hp hy
    by_cases hpn : p = name
    · subst hpn
      obtain ⟨hp, hne⟩ := NodeTree.unlink_key.mp hp
      obtain ⟨m, hm⟩ := h.exists_place (h.sound.live_of_key hp).1
      have huser : (C.place (.user p m)).isSome := h.user.mpr ⟨c, j, hp, hm⟩
      have hma : m ≠ C.index a := by
        rintro rfl
        obtain ⟨k, hk⟩ := h.exists_place (h.sound.live_of_key hi).1
        rw [Content.index_of hk] at hm
        have hnode := hinj hm hk
        cases hnode
        exact hne ⟨rfl, h.sound.inj hp hi⟩
      obtain ⟨z, hz⟩ := Option.isSome_iff_exists.mp (hu.last.mpr ⟨m, (hu.user m).mpr ⟨huser, hma⟩⟩)
      rw [hz, ← hu.property hz, hy]
    · rw [hu.same.place (by simp [hpn]), hy]
  constructor
  case sound => exact h.sound.unlink hkeys hnone
  case json => rw [hu.place_self fun hc => hroot _ hc rfl]; exact h.json
  case properties => rw [hu.same.place (by simp)]; exact h.properties
  case words => rw [hu.same.place (by simp)]; exact h.words
  case objects => rw [hu.same.place (by simp)]; exact h.objects
  case live =>
    intro c
    rw [NodeTree.live_unlink hkeys]
    by_cases hc : i :: a <:+ c
    · rw [(hu.gone (Spot.node_under.mpr hc)).1]
      refine iff_of_false (by simp) ?_
      rintro ⟨hlive, hne⟩
      exact NodeTree.not_isSuffix_of_live hkeys hlive hne hc
    · rw [hu.place_self hc, h.live]
      have hne : c ≠ i :: a := by
        rintro rfl
        exact hc (List.suffix_refl _)
      exact (and_iff_left hne).symm
  case type =>
    intro c
    by_cases hc : i :: a <:+ c
    · rw [(hu.gone (Spot.node_under.mpr hc)).2, show (D.unlink a i).type c = D.type c from rfl,
        (hbelow c hc).1]
      rfl
    · rw [hu.same.data (by simpa [Spot.node_under] using hc)]
      exact h.type c
  case count =>
    intro c
    by_cases hc : i :: a <:+ c
    · rw [(hu.gone (Spot.node_under.mpr hc)).2, show (D.unlink a i).count c = D.count c from rfl,
        (hbelow c hc).2]
      rfl
    · rw [hu.same.data (by simpa [Spot.node_under] using hc)]
      exact h.count c
  case entry =>
    intro c j p hp
    obtain ⟨hold, hne⟩ := NodeTree.unlink_key.mp hp
    obtain ⟨y, hy, hentry, hposition⟩ := h.entry hold
    have hc := hsuffix hp
    refine ⟨y, hproperty hp hy, ?_, ?_⟩
    · rw [hu.same.data, hentry]
      simp only [Spot.Loose, reduceCtorEq, Spot.node.injEq, NodePart.property.injEq, exists_false,
        false_or, Spot.node_under, not_or]
      refine ⟨?_, hc⟩
      rintro ⟨rfl, rfl⟩
      have hsame := hinj hy hx
      cases hsame
      exact hne ⟨rfl, h.sound.inj hold hi⟩
    · rw [hu.same.data, hposition]
      simpa [Spot.node_under] using hc
  case only =>
    intro c y hy
    have hc : ¬ i :: a <:+ c := by
      intro hc
      rw [(hu.gone (Spot.node_under.mpr hc)).1] at hy
      cases hy
    have hcy : ¬ (c = a ∧ y = x) := by
      rintro ⟨rfl, rfl⟩
      rw [hu.entry] at hy
      cases hy
    rw [hu.same.place (by simpa [Spot.node_under, hc] using hcy)] at hy
    obtain ⟨j, p, hp, hpy⟩ := h.only hy
    have hne : ¬ (c = a ∧ j = i) := by
      rintro ⟨rfl, rfl⟩
      obtain ⟨rfl⟩ := Option.some.inj (hp.symm.trans hi)
      exact hcy ⟨rfl, Option.some.inj (hpy.symm.trans hx)⟩
    have hkey := NodeTree.unlink_key.mpr ⟨hp, hne⟩
    exact ⟨j, p, hkey, hproperty hkey hpy⟩
  case used =>
    intro p hp
    by_cases hpn : p = name
    · subst hpn
      obtain ⟨y, hy⟩ := hu.last.mp hp
      obtain ⟨huser, hya⟩ := (hu.user y).mp hy
      obtain ⟨c, j, hkey, hc⟩ := h.user.mp huser
      refine ⟨c, j, NodeTree.unlink_key.mpr ⟨hkey, ?_⟩⟩
      rintro ⟨rfl, -⟩
      exact hya (Content.index_of hc).symm
    · rw [hu.same.place (by simp [hpn])] at hp
      obtain ⟨c, j, hkey⟩ := h.used hp
      refine ⟨c, j, NodeTree.unlink_key.mpr ⟨hkey, ?_⟩⟩
      rintro ⟨rfl, rfl⟩
      obtain ⟨rfl⟩ := Option.some.inj (hkey.symm.trans hi)
      exact hpn rfl
  case user =>
    intro p y
    have hiff : (C'.place (.user p y)).isSome ↔ (C.place (.user p y)).isSome ∧
      ¬ (p = name ∧ y = C.index a) := by
      by_cases hpn : p = name
      · subst hpn
        rw [hu.user]
        simp
      · rw [hu.same.place (by simp [hpn])]
        simp [hpn]
    rw [hiff, h.user]
    constructor
    · rintro ⟨⟨c, j, hkey, hc⟩, hne⟩
      have hkey' : (D.unlink a i).key c j = some (.string p) := by
        refine NodeTree.unlink_key.mpr ⟨hkey, ?_⟩
        rintro ⟨rfl, rfl⟩
        obtain ⟨rfl⟩ := Option.some.inj (hkey.symm.trans hi)
        exact hne ⟨rfl, (Content.index_of hc).symm⟩
      exact ⟨c, j, hkey', by rw [hu.place_self (hsuffix hkey'), hc]⟩
    · rintro ⟨c, j, hkey, hc⟩
      obtain ⟨hold, hne⟩ := NodeTree.unlink_key.mp hkey
      rw [hu.place_self (hsuffix hkey)] at hc
      refine ⟨⟨c, j, hold, hc⟩, ?_⟩
      rintro ⟨rfl, rfl⟩
      obtain ⟨k, hk⟩ := h.exists_place (h.sound.live_of_key hi).1
      rw [Content.index_of hk] at hc
      have hnode := hinj hc hk
      cases hnode
      exact hne ⟨rfl, h.sound.inj hold hi⟩

theorem Bounds.unlink (hbounds : Bounds L D C) (h : Holds J D C) (hu : C.Unlinked C' a name i x)
    (hkeys : ∀ j, D.key (i :: a) j = none) (hnone : D.type (i :: a) = none) :
    Bounds L (D.unlink a i) C' := by
  have hindex := hu.index h hkeys
  have hdead : ∀ {c d}, c <:+ d → (D.type d).isSome → ¬ i :: a <:+ c ∧ (D.unlink a i).Live d := by
    intro c d hcd hd
    have hlive := h.sound.live hd
    have hne : d ≠ i :: a := by
      rintro rfl
      rw [hnone] at hd
      cases hd
    exact ⟨fun hc => NodeTree.not_isSuffix_of_live hkeys hlive hne (hc.trans hcd),
      (NodeTree.live_unlink hkeys d).mpr ⟨hlive, hne⟩⟩
  intro y k
  rw [hu.same.place (by simp), hbounds]
  constructor
  · rintro ⟨c, d, hc, hy, hcd, hd, rfl⟩
    obtain ⟨hnot, hlive⟩ := hdead hcd hd
    exact ⟨c, d, hc, by rw [hu.place_self hnot, hy], hcd, hd,
      ((NodeTree.SameWay.unlink hkeys hlive hindex).id L).symm⟩
  · rintro ⟨c, d, hc, hy, hcd, hd, rfl⟩
    obtain ⟨hnot, hlive⟩ := hdead hcd hd
    rw [hu.place_self hnot] at hy
    exact ⟨c, d, hc, hy, hcd, hd, (NodeTree.SameWay.unlink hkeys hlive hindex).id L⟩

theorem Words.unlink (hw : Words L D C nodes) (h : Holds J D C) (hu : C.Unlinked C' a name i x)
    (hkeys : ∀ j, D.key (i :: a) j = none) (hnodes : i :: a ∉ nodes) :
    Words L (D.unlink a i) C' nodes := by
  have hlive : ∀ c ∈ nodes, (D.unlink a i).Live c := fun c hc =>
    (NodeTree.live_unlink hkeys c).mpr ⟨hw.live c hc, fun he => hnodes (he ▸ hc)⟩
  have hentries : nodes.flatMap ((D.unlink a i).entries L C'.index) = nodes.flatMap
    (D.entries L C.index) :=
    List.flatMap_congr fun c hc =>
      (NodeTree.SameWay.unlink hkeys (hlive c hc) (hu.index h hkeys)).entries L
  constructor
  case nodup => exact hw.nodup
  case live => exact hlive
  case tally =>
    intro w k
    rw [Content.tally, hu.same.data (by simp), hentries]
    exact hw.tally w k
  case place => intro w k; rw [hu.same.place (by simp), hentries]; exact hw.place w k
  case word => intro w; rw [hu.same.place (by simp), hentries]; exact hw.word w

end

/-! ### Walking to the children -/

/-- Below the children of a node stands what is at a child or below it. -/
theorem Spot.children_under {b : List ℕ} {t : Spot} (h : (node b .children).Under t) :
    t = node b .children ∨ ∃ i c part, i :: b <:+ c ∧ t = node c part := by
  have hself : ∀ {c : List ℕ}, (node b .children).Under (node c .self) → ∃ i, i :: b <:+ c := by
    intro c hc
    simpa using hc
  cases t with
  | node c part =>
    by_cases hpart : part = .self
    · subst hpart
      obtain ⟨i, hi⟩ := hself h
      exact Or.inr ⟨i, c, .self, hi, rfl⟩
    · rcases (under_part hpart).mp h with he | he | hc
      · exact Or.inl he.symm
      · cases part <;> simp [above] at he
      · obtain ⟨i, hi⟩ := hself hc
        exact Or.inr ⟨i, c, part, hi, rfl⟩
  | _ => simp at h

theorem Holds.make_children {J : JSONDatabase} {D : NodeTree} {C : Content} (h : Holds J D C)
    (b : List ℕ) (i : ℕ) :
    Holds J D (C.make (.node b .children) i) := by
  have hplace : ∀ s, s ≠ .node b .children → (C.make (.node b .children) i).place s = C.place s :=
    fun s hs => Content.make_place_of_ne hs i
  constructor
  case sound => exact h.sound
  case json => rw [hplace _ (by simp)]; exact h.json
  case properties => rw [hplace _ (by simp)]; exact h.properties
  case words => rw [hplace _ (by simp)]; exact h.words
  case objects => rw [hplace _ (by simp)]; exact h.objects
  case live => intro a; rw [hplace _ (by simp)]; exact h.live a
  case type => exact h.type
  case count => exact h.count
  case entry =>
    intro a j p hp
    obtain ⟨x, hx, hentry, hposition⟩ := h.entry hp
    exact ⟨x, by rw [hplace _ (by simp), hx], hentry, hposition⟩
  case only =>
    intro a x hx
    rw [hplace _ (by simp)] at hx
    obtain ⟨j, p, hp, hpx⟩ := h.only hx
    exact ⟨j, p, hp, by rw [hplace _ (by simp), hpx]⟩
  case used =>
    intro p hp
    rw [hplace _ (by simp)] at hp
    exact h.used hp
  case user =>
    intro p x
    rw [hplace _ (by simp), h.user]
    simp only [hplace _ (show Spot.node _ .self ≠ .node b .children by simp)]

theorem Indexed.make_children {J : JSONDatabase} {L : Locale} {D : NodeTree} {C : Content}
    {nodes : List (List ℕ)}
    (h : Indexed J L D C nodes) (b : List ℕ) (i : ℕ) :
    Indexed J L D (C.make (.node b .children) i) nodes := by
  have hplace : ∀ s, s ≠ .node b .children → (C.make (.node b .children) i).place s = C.place s :=
    fun s hs => Content.make_place_of_ne hs i
  have hindex : (C.make (.node b .children) i).index = C.index := funext fun c => by
    rw [Content.index, Content.index, hplace _ (by simp)]
  refine ⟨h.toHolds.make_children b i, fun x k => ?_, ⟨h.counts.nodup, h.counts.live, ?_, ?_, ?_⟩⟩
  · rw [hplace _ (by simp), h.bounds, hindex]
    simp only [hplace _ (show Spot.node _ .self ≠ .node b .children by simp)]
  · rw [hindex]
    exact h.counts.tally
  · intro w k
    rw [hindex, hplace _ (by simp)]
    exact h.counts.place w k
  · intro w
    rw [hindex, hplace _ (by simp)]
    exact h.counts.word w

/-! ### Deleting a property -/

/-- What is below a node is as it was, but for what the file has of it. -/
structure Within (J : JSONDatabase) (L : Locale) (D : NodeTree) (C : Content)
    (nodes : List (List ℕ)) (b : List ℕ) (D' : NodeTree)
    (C' : Content) (nodes' : List (List ℕ)) : Prop where
  indexed : Indexed J L D' C' nodes'
  mem : ∀ c, c ∈ nodes' ↔ c ∈ nodes ∧ D'.Live c
  sub : ∀ {c j d}, D'.key c j = some d → D.key c j = some d
  subType : ∀ {c τ}, D'.type c = some τ → D.type c = some τ
  property : ∀ {q y}, C'.place (.property q) = some y → C.place (.property q) = some y
  key : ∀ {c} j, ¬ b <:+ c → D'.key c j = D.key c j
  type : ∀ {c}, ¬ b <:+ c → D'.type c = D.type c
  frame : ∀ {c} part, ¬ b <:+ c → C'.place (.node c part) = C.place (.node c part)
  self : C'.place (.node b .self) = C.place (.node b .self)

/-- The node at `b` has nothing left but its place. -/
structure Cleared (J : JSONDatabase) (L : Locale) (D : NodeTree) (C : Content)
    (nodes : List (List ℕ)) (b : List ℕ) (D' : NodeTree)
    (C' : Content) (nodes' : List (List ℕ)) : Prop extends Within J L D C nodes b D' C' nodes' where
  bareKey : ∀ j, D'.key b j = none
  bareType : D'.type b = none
  bareCount : D'.count b = 0

/-- The child of `a` at the position `i` is gone. -/
structure Deleted (J : JSONDatabase) (L : Locale) (D : NodeTree) (C : Content)
    (nodes : List (List ℕ)) (a : List ℕ) (i : ℕ)
    (D' : NodeTree) (C' : Content) (nodes' : List (List ℕ)) : Prop where
  indexed : Indexed J L D' C' nodes'
  mem : ∀ c, c ∈ nodes' ↔ c ∈ nodes ∧ D'.Live c
  sub : ∀ {c j d}, D'.key c j = some d → D.key c j = some d
  subType : ∀ {c τ}, D'.type c = some τ → D.type c = some τ
  property : ∀ {q y}, C'.place (.property q) = some y → C.place (.property q) = some y
  key : ∀ {c} j, ¬ i :: a <:+ j :: c → D'.key c j = D.key c j
  type : ∀ {c}, ¬ i :: a <:+ c → D'.type c = D.type c
  gone : D'.key a i = none
  frame : ∀ {c} part, ¬ i :: a <:+ c → (c = a → part = .self ∨ part = .children) →
    C'.place (.node c part) = C.place (.node c part)
  dropped : ∀ {c} part, i :: a <:+ c → C'.place (.node c part) = none

/-- The object with the index `m` does not use the name any more, which is gone
if no other one does. -/
structure Content.Unused (C C' : Content) (name : BString) (m : ℕ) : Prop where
  same : C.SameBut (fun s => s = .property name ∨ ∃ y, s = .user name y) C'
  property : ∀ {y}, C'.place (.property name) = some y → C.place (.property name) = some y
  last : (C'.place (.property name)).isSome ↔ ∃ y, (C'.place (.user name y)).isSome
  user : ∀ y, (C'.place (.user name y)).isSome ↔ (C.place (.user name y)).isSome ∧ y ≠ m

/-- Nothing is known of what is not live. -/
theorem Holds.dead {J : JSONDatabase} {D : NodeTree} {C : Content} {n : ℕ} {c : List ℕ}
    (h : Holds J D C) (hC : C.Sound n)
    (hc : ¬ D.Live c) : D.type c = none ∧ D.count c = 0 := by
  constructor
  · by_contra hsome
    exact hc (h.sound.live (Option.isSome_iff_ne_none.mpr hsome))
  · by_contra hne
    have hcount := h.count c
    rw [if_neg hne] at hcount
    have hdead : C.place (.node c .self) = none := by rwa [← Option.not_isSome_iff_eq_none, h.live]
    rw [hC.data (hC.closed (Spot.node_under.mpr (List.suffix_refl c)) hdead)] at hcount
    cases hcount

theorem Bounds.of_sameBut {L : Locale} {D : NodeTree} {C C' : Content} (h : Bounds L D C)
    (hs : C.SameBut Spot.OfCounters C') :
    Bounds L D C' := by
  have hindex : C'.index = C.index := (hs.mono fun _ hs => hs.ofWords.aside).index
  intro x k
  rw [hs.place (by simp), h, hindex]
  simp only [hs.place (show ¬ (Spot.node _ .self).OfCounters by simp)]

theorem NodeTree.live_of_sub {D D' : NodeTree}
    (h : ∀ {c j d}, D'.key c j = some d → D.key c j = some d) : ∀ {c : List ℕ},
    D'.Live c → D.Live c
  | [], _ => trivial
  | _ :: c, hc => by
    obtain ⟨d, hd⟩ := Option.isSome_iff_exists.mp hc.2
    exact ⟨live_of_sub h hc.1, by rw [h hd]; rfl⟩

namespace Within

variable {J : JSONDatabase} {L : Locale} {D D' D'' : NodeTree} {C C' C'' : Content}
    {nodes nodes' nodes'' : List (List ℕ)} {b : List ℕ}
  {i : ℕ}

theorem refl (h : Indexed J L D C nodes) : Within J L D C nodes b D C nodes where
  indexed := h
  mem c := (and_iff_left_of_imp (h.counts.live c)).symm
  sub hd := hd
  subType hτ := hτ
  property hy := hy
  key _ _ := rfl
  type _ := rfl
  frame _ _ := rfl
  self := rfl

theorem trans (h : Within J L D C nodes b D' C' nodes')
    (h' : Within J L D' C' nodes' b D'' C'' nodes'') :
    Within J L D C nodes b D'' C'' nodes'' where
  indexed := h'.indexed
  mem c := by
    rw [h'.mem, h.mem, and_assoc]
    exact and_congr_right fun _ => and_iff_right_of_imp (NodeTree.live_of_sub h'.sub)
  sub hd := h.sub (h'.sub hd)
  subType hτ := h.subType (h'.subType hτ)
  property hy := h.property (h'.property hy)
  key j hc := (h'.key j hc).trans (h.key j hc)
  type hc := (h'.type hc).trans (h.type hc)
  frame part hc := (h'.frame part hc).trans (h.frame part hc)
  self := h'.self.trans h.self

theorem of_deleted (h : Deleted J L D C nodes b i D' C' nodes') :
    Within J L D C nodes b D' C' nodes' where
  indexed := h.indexed
  mem := h.mem
  sub := h.sub
  subType := h.subType
  property := h.property
  key {c} j hc := by
    refine h.key j fun hs => ?_
    rcases List.suffix_cons_iff.mp hs with he | hs
    · obtain ⟨-, rfl⟩ := List.cons.inj he
      exact hc (List.suffix_refl _)
    · exact hc ((List.suffix_cons i b).trans hs)
  type hc := h.type fun hs => hc ((List.suffix_cons i b).trans hs)
  frame {c} part hc := by
    refine h.frame part (fun hs => hc ((List.suffix_cons i b).trans hs)) ?_
    rintro rfl
    exact absurd (List.suffix_refl _) hc
  self := by
    refine h.frame .self (fun hs => ?_) fun _ => Or.inl rfl
    simpa using hs.length_le

end Within

namespace JSON

variable {J : JSONDatabase} {L : Locale} {D : NodeTree} {F : File} {a b : List ℕ} {i x : ℕ}
    {p q : Path} {name : BString}
  {nodes : List (List ℕ)}

/-- A property that is there is found, and nothing is made. -/
theorem meets_contains_of_some (h : Holds J D F.content)
    (hp : F.content.place (.node a .self) = some p.index)
    (hi : D.key a i = some (.string name)) : Meets (fun _ => contains J p name) F fun b F' =>
      F' = F ∧ b = true := by
  obtain ⟨x, hx, hentry, -⟩ := h.entry hi
  obtain ⟨k, hk⟩ := Option.isSome_iff_exists.mp (File.isSome_of_data hentry
    ((Spot.under_up (Spot.up_property a x)).mpr (Or.inr (Spot.under_refl _))))
  refine Meets.bind (meets_type h hp) ?_
  rintro τ F' - ⟨rfl, rfl⟩
  rw [h.sound.string hi, if_neg (by simp)]
  refine Meets.bind (Path.meets_contains (t := .property name) rfl h.properties) ?_
  rintro b F' - ⟨rfl, rfl⟩
  rw [hx]
  refine Meets.bind (Path.meets_walk_of_some (t := .property name) rfl h.properties hx) ?_
  rintro q F'' - ⟨rfl, rfl⟩
  refine Meets.bind (Path.meets_walk_of_some (Spot.up_properties a) hp hk) ?_
  rintro r F' - ⟨rfl, rfl⟩
  refine (Path.meets_contains (Spot.up_property a q.index) hk).mono ?_
  rintro b F'' - ⟨rfl, rfl⟩
  exact ⟨rfl, File.isSome_of_data hentry (Spot.under_refl _)⟩

/-- The object is taken out of the objects that have the name. -/
theorem meets_removeUser (h : Holds J D F.content)
    (hq : F.content.place (.property name) = some q.index) :
    Meets (fun _ => do
      q.clearKeyNow (.of p.index)
      if ← q.isDeadEndNow then J.properties.clearKeyNow (.of name)) F fun _ F' =>
        F.content.Unused F'.content name p.index := by
  refine Meets.bind (Path.meets_clearKey (t := .user name p.index) (s := .property name) rfl hq) ?_
  rintro _ F₁ - h₁
  have hother : ∀ s, s ≠ .user name p.index → F₁.content.place s = F.content.place s ∧
    F₁.content.data s = F.content.data s := by
    intro s hs
    have hnot : ¬ (Spot.user name p.index).Under s := fun hu => hs (Spot.user_under.mp hu)
    rw [h₁, Content.drop_place_of_not hnot, Content.drop_data_of_not hnot]
    exact ⟨rfl, rfl⟩
  have huser : ∀ y, (F₁.content.place (.user name y)).isSome ↔
    (F.content.place (.user name y)).isSome ∧ y ≠ p.index := by
    intro y
    by_cases hy : y = p.index
    · rw [hy, h₁, Content.drop_place_of (Spot.under_refl _)]
      simp
    · rw [(hother _ (by simpa using hy)).1]
      simp [hy]
  have hq₁ : F₁.content.place (.property name) = some q.index := by rw [(hother _ (by simp)).1, hq]
  refine Meets.bind (Path.meets_isDeadEnd hq₁) ?_
  rintro b F' - ⟨rfl, hdead⟩
  cases b with
  | false =>
    refine Meets.ret ⟨fun s hs => hother s ?_, fun hy => by rwa [(hother _ (by simp)).1] at hy, ?_,
      huser⟩
    · rintro rfl
      exact hs (Or.inr ⟨_, rfl⟩)
    · rw [hq₁]
      simp only [Bool.false_eq_true, false_iff, not_forall] at hdead
      obtain ⟨t, hunder, hne, hsome⟩ := hdead
      obtain ⟨y, rfl⟩ := (Spot.property_under.mp hunder).resolve_left hne
      exact iff_of_true rfl ⟨y, Option.isSome_iff_ne_none.mpr hsome⟩
  | true =>
    have hnone := hdead.mp rfl
    refine (Path.meets_clearKey (t := .property name) (s := .properties) rfl ?_).mono ?_
    · rw [(hother _ (by simp)).1]
      exact h.properties
    rintro _ F₂ - h₂
    have hgone : F₂.content.place (.property name) = none := by
      rw [h₂, Content.drop_place_of (Spot.under_refl _)]
    have husers : ∀ y, F₂.content.place (.user name y) = none := fun y => by
      rw [h₂, Content.drop_place_of (Spot.property_under.mpr (Or.inr ⟨y, rfl⟩))]
    refine ⟨fun s hs => ?_, fun {y} hy => ?_, by simp [hgone, husers], fun y => ?_⟩
    · have hnot : ¬ (Spot.property name).Under s := fun hu => hs (Spot.property_under.mp hu)
      have hs' : s ≠ .user name p.index := fun he => hs (Or.inr ⟨_, he⟩)
      rw [h₂, Content.drop_place_of_not hnot, Content.drop_data_of_not hnot]
      exact hother s hs'
    · rw [hgone] at hy
      cases hy
    · rw [husers, ← huser, hnone (.user name y) (Spot.property_under.mpr (Or.inr ⟨y, rfl⟩))
        (by simp)]

/-- The end of `deleteProperty`, when nothing is left of the child. -/
theorem meets_deleteProperty_end (h : Indexed J L D F.content nodes)
    (hp : F.content.place (.node a .self) = some p.index)
    (hi : D.key a i = some (.string name)) (hq : F.content.place (.property name) = some q.index)
    (hkeys : ∀ j, D.key (i :: a) j = none) (hnone : D.type (i :: a) = none)
    (hcount : D.count (i :: a) = 0) (hnodes : i :: a ∉ nodes) :
    Meets (fun _ => do
      if ← q.containsNow (.of p.index) then
        q.clearKeyNow (.of p.index)
        if ← q.isDeadEndNow then J.properties.clearKeyNow (.of name)
      (← getObjectProperties p).clearKeyNow (.of q.index)
      (← getChildren p).clearKeyNow (.of i)) F fun _ F' => Deleted J L D F.content nodes a i
        (D.unlink a i) F'.content nodes := by
  have hb := h.sound.live_of_key hi
  obtain ⟨j, hj⟩ := h.exists_place hb
  obtain ⟨k, hk⟩ := Option.isSome_iff_exists.mp (File.isSome_of_place hj
    ((Spot.under_up (t := .node (i :: a) .self) (u := .node a .children) rfl).mpr
      (Or.inr (Spot.under_refl _))))
  obtain ⟨x, hx, hentry, -⟩ := h.entry hi
  obtain rfl : x = q.index := Option.some.inj (hx.symm.trans hq)
  obtain ⟨m, hm⟩ := Option.isSome_iff_exists.mp (File.isSome_of_data hentry
    ((Spot.under_up (Spot.up_property a q.index)).mpr (Or.inr (Spot.under_refl _))))
  -- what follows once the object does not use the name
  have hrest : ∀ F₁ : File, F.content.Unused F₁.content name p.index → Meets (fun _ => do
      (← getObjectProperties p).clearKeyNow (.of q.index)
      (← getChildren p).clearKeyNow (.of i)) F₁ fun _ F' => Deleted J L D F.content nodes a i
        (D.unlink a i) F'.content nodes := by
    intro F₁ h₁
    have hsame₁ : ∀ c part, F₁.content.place (.node c part) = F.content.place (.node c part) :=
      fun c part => h₁.same.place (by simp)
    refine Meets.bind (Path.meets_walk_of_some (Spot.up_properties a) (by rw [hsame₁]; exact hp)
      (by rw [hsame₁]; exact hm)) ?_
    rintro r F' - ⟨rfl, rfl⟩
    refine Meets.bind (Path.meets_clearKey (Spot.up_property a q.index) (by rw [hsame₁]; exact hm))
      ?_
    rintro _ F₂ - h₂
    have hnot₂ : ∀ s, s ≠ .node a (.property q.index) → F₂.content.place s = F'.content.place s ∧
      F₂.content.data s = F'.content.data s := by
      intro s hs
      have hnot : ¬ (Spot.node a (.property q.index)).Under s :=
        fun hu => hs (Spot.entry_under.mp hu)
      rw [h₂, Content.drop_place_of_not hnot, Content.drop_data_of_not hnot]
      exact ⟨rfl, rfl⟩
    refine Meets.bind (Path.meets_walk_of_some (Spot.up_children a) (i := k)
      (by rw [(hnot₂ _ (by simp)).1, hsame₁]; exact hp)
      (by rw [(hnot₂ _ (by simp)).1, hsame₁]; exact hk)) ?_
    rintro c F'' - ⟨rfl, hc⟩
    refine (Path.meets_clearKey (t := .node (i :: a) .self) (s := .node a .children) rfl
      (by rw [(hnot₂ _ (by simp)).1, hsame₁, hk, hc])).mono ?_
    rintro _ F₃ - h₃
    have hnot₃ : ∀ s, ¬ (Spot.node (i :: a) .self).Under s →
      F₃.content.place s = F''.content.place s ∧
        F₃.content.data s = F''.content.data s := by
      intro s hs
      rw [h₃, Content.drop_place_of_not hs, Content.drop_data_of_not hs]
      exact ⟨rfl, rfl⟩
    have hgone : ∀ {s}, (Spot.node (i :: a) .self).Under s → F₃.content.place s = none ∧
      F₃.content.data s = none := by
      intro s hs
      rw [h₃, Content.drop_place_of hs, Content.drop_data_of hs]
      exact ⟨rfl, rfl⟩
    have hindex : F.content.index a = p.index := Content.index_of hp
    have hu : F.content.Unlinked F₃.content a name i q.index := by
      constructor
      case same =>
        intro s hs
        simp only [not_or] at hs
        obtain ⟨-, hproperty, huser, hentry, hunder⟩ := hs
        rw [(hnot₃ s hunder).1, (hnot₃ s hunder).2, (hnot₂ s hentry).1, (hnot₂ s hentry).2]
        exact h₁.same s (not_or.mpr ⟨hproperty, huser⟩)
      case property =>
        intro y hy
        rw [(hnot₃ _ (by simp)).1, (hnot₂ _ (by simp)).1] at hy
        exact h₁.property hy
      case last =>
        rw [(hnot₃ _ (by simp)).1, (hnot₂ _ (by simp)).1, h₁.last]
        refine exists_congr fun y => ?_
        rw [(hnot₃ _ (by simp)).1, (hnot₂ _ (by simp)).1]
      case user =>
        intro y
        rw [(hnot₃ _ (by simp)).1, (hnot₂ _ (by simp)).1, h₁.user, hindex]
      case entry =>
        have hself : ¬ (Spot.node (i :: a) .self).Under (.node a (.property q.index)) := by
          rw [Spot.node_under]
          intro hs
          simpa using hs.length_le
        rw [(hnot₃ _ hself).1, h₂, Content.drop_place_of (Spot.under_refl _)]
      case gone => exact hgone
    have hbelow : ∀ c, i :: a <:+ c → D.type c = none ∧ D.count c = 0 := by
      intro c hc
      by_cases he : c = i :: a
      · rw [he]
        exact ⟨hnone, hcount⟩
      · exact h.toHolds.dead F.sound fun hlive => NodeTree.not_isSuffix_of_live hkeys hlive he hc
    have hold := h.toHolds.unlink F.sound.inj hu hi hx hkeys hnone hcount hbelow
    refine ⟨⟨hold, h.bounds.unlink h.toHolds hu hkeys hnone,
      h.counts.unlink h.toHolds hu hkeys hnodes⟩, fun c => ?_, fun hd => ?_,
      fun hτ => hτ, fun {r y} hy => ?_, fun {c} j hc => ?_, fun _ => rfl, if_pos ⟨rfl, rfl⟩,
        fun {c} part hc hpart => ?_, fun {c} part hc => ?_⟩
    · refine ⟨fun hc => ⟨hc, (NodeTree.live_unlink hkeys c).mpr ⟨h.counts.live c hc, ?_⟩⟩, And.left⟩
      rintro rfl
      exact hnodes hc
    · exact (NodeTree.unlink_key.mp hd).1
    · rw [(hnot₃ _ (by simp)).1, (hnot₂ _ (by simp)).1] at hy
      by_cases hr : r = name
      · rw [hr] at hy ⊢
        exact h₁.property hy
      · rwa [h₁.same.place (by simp [hr])] at hy
    · refine NodeTree.unlink_key_of_ne ?_
      intro he
      exact hc (he ▸ List.suffix_refl _)
    · have hne : Spot.node c part ≠ .node a (.property q.index) := by
        intro he
        cases he
        rcases hpart rfl with hself | hchildren
        · cases hself
        · cases hchildren
      rw [(hnot₃ _ (by rwa [Spot.node_under])).1, (hnot₂ _ hne).1, hsame₁]
    · exact (hgone (Spot.node_under.mpr hc)).1
  refine Meets.bind (Path.meets_contains (t := .user name p.index) (s := .property name) rfl hq) ?_
  rintro b F' - ⟨rfl, rfl⟩
  rw [h.user.mpr ⟨a, i, hi, hp⟩]
  refine (Meets.bind (meets_removeUser h.toHolds hq) fun _ F₁ _ h₁ => hrest F₁ h₁).congr fun _ => ?_
  simp only [bind_assoc, if_true]
  refine bind_congr fun _ => bind_congr fun dead => ?_
  cases dead <;> simp

/-- `deleteProperty`, with what clearing the child comes to. -/
theorem meets_deleteProperty_of_clear (h : Indexed J L D F.content nodes)
    (hp : F.content.place (.node a .self) = some p.index)
    (hi : D.key a i = some (.string name)) (hmem : i :: a ∈ nodes)
    (hclear : ∀ {F₁ : File} {q : Path}, Indexed J L D F₁.content (nodes.erase (i :: a)) →
      F₁.content.place (.node (i :: a) .self) = some q.index → Meets (fun fuel => clear J L fuel q)
        F₁ fun _ F₂ =>
        ∃ D' nodes', Cleared J L D F₁.content (nodes.erase (i :: a)) (i :: a)
          D' F₂.content nodes') :
    Meets (fun fuel => deleteProperty J L fuel p name) F fun _ F' =>
      ∃ D' nodes', Deleted J L D F.content nodes a i D' F'.content nodes' := by
  have hnot : ¬ i :: a <:+ a := fun hs => by simpa using hs.length_le
  refine Meets.step ?_ fun fuel => deleteProperty.eq_2 J L p name fuel
  refine Meets.bind (meets_contains_of_some h.toHolds hp hi) ?_
  rintro _ F' - ⟨rfl, rfl⟩
  simp only [Bool.not_true, Bool.false_eq_true, if_false]
  refine Meets.bind (meets_child_of_some h.toHolds hp hi) ?_
  rintro json F'' - ⟨rfl, hjson⟩
  refine Meets.bind (meets_upwards (f := fun n => removeProperties J L json n json)
    (meets_removeProperties h.toHolds h.counts.tallied hjson hjson (File.length_lt_depth hjson))) ?_
  rintro _ F₁ - hd
  have h₁ : Indexed J L D F₁.content (nodes.erase (i :: a)) :=
    ⟨hd.holds h.toHolds, h.bounds.of_sameBut hd.same, h.counts.discounted hmem hd⟩
  have hp₁ : F₁.content.place (.node a .self) = some p.index := by rw [(hd.node _ _).1, hp]
  refine Meets.bind (meets_getObjectPropertyPosition_of_some h₁.toHolds hp₁ hi) ?_
  rintro position F' - ⟨rfl, rfl⟩
  obtain ⟨x, hx, -⟩ := h₁.entry hi
  refine Meets.bind (Path.meets_walk_of_some (t := .property name) rfl h₁.properties hx) ?_
  rintro q F₀ - ⟨rfl, rfl⟩
  refine Meets.bind (hclear h₁ (by rw [(hd.node _ _).1, hjson])) ?_
  rintro _ F₂ - ⟨D₂, nodes₂, h₂⟩
  have hi₂ : D₂.key a position = some (.string name) := by rw [h₂.key position hnot, hi]
  obtain ⟨y, hy, -⟩ := h₂.indexed.entry hi₂
  obtain rfl : y = q.index := Option.some.inj ((h₂.property hy).symm.trans hx)
  have hnodes₂ : position :: a ∉ nodes₂ :=
    fun hc => h.counts.nodup.not_mem_erase ((h₂.mem _).mp hc).1
  refine (meets_deleteProperty_end h₂.indexed (by rw [h₂.frame .self hnot, hp₁]) hi₂ hy h₂.bareKey
    h₂.bareType h₂.bareCount hnodes₂).mono ?_
  rintro _ F₃ - h₃
  refine ⟨_, _, h₃.indexed, fun c => ?_, fun hc => h₂.sub (h₃.sub hc), fun hτ =>
    h₂.subType (h₃.subType hτ), fun {r z} hz => ?_,
    fun {c} j hc => ?_, fun {c} hc => (h₃.type hc).trans (h₂.type hc), h₃.gone,
      fun {c} part hc hpart => ?_, fun part hc => h₃.dropped part hc⟩
  · rw [h₃.mem, h₂.mem, h.counts.nodup.mem_erase_iff]
    constructor
    · rintro ⟨⟨⟨-, hc⟩, -⟩, hlive⟩
      exact ⟨hc, hlive⟩
    · rintro ⟨hc, hlive⟩
      refine ⟨⟨⟨?_, hc⟩, NodeTree.live_of_sub h₃.sub hlive⟩, hlive⟩
      rintro rfl
      have hsome := hlive.2
      rw [h₃.gone] at hsome
      cases hsome
  · have hz₁ := h₂.property (h₃.property hz)
    rwa [hd.same.place (by simp)] at hz₁
  · exact (h₃.key j hc).trans (h₂.key j fun hs => hc (hs.trans (List.suffix_cons j c)))
  · rw [h₃.frame part hc hpart, h₂.frame part hc, (hd.node _ _).1]

end JSON

/-! ### Clearing a node -/

/-- No property is `{HTTP}`, and no node is a string or an array. -/
structure NodeTree.Simple (L : Locale) (D : NodeTree) : Prop where
  plain : D.Plain L
  string : ∀ c, D.type c ≠ some .string
  array : ∀ c, D.type c ≠ some .array

theorem NodeTree.Simple.of_sub {L : Locale} {D D' : NodeTree} (h : D.Simple L)
    (hsub : ∀ {c j d}, D'.key c j = some d → D.key c j = some d)
    (htype : ∀ {c τ}, D'.type c = some τ → D.type c = some τ) : D'.Simple L :=
  ⟨fun a i c hc => h.plain a i c (hsub hc), fun c hc => h.string c (htype hc), fun c hc =>
    h.array c (htype hc)⟩

/-- What a walk over the children of a node comes to: the first one that is
left. -/
def NextChild (F : File) (D : NodeTree) (b : List ℕ) (r : Option ℕ × Walk Path) : Prop :=
  (r.1 = none ∧ ∀ j, D.key b j = none) ∨ ∃ j, r.1 = some j ∧ (D.key b j).isSome ∧
    File.Cursor F (.node b .children) r.2 (encode j) ∧ ∀ k, (D.key b k).isSome → j ≤ k

/-- The ancestors of a node are in the file with it. -/
structure Deep (D : NodeTree) (nodes : List (List ℕ)) (b : List ℕ) (n : ℕ) : Prop where
  le : ∀ c, D.Live c → b <:+ c → c.length ≤ b.length + n
  mem : ∀ c, D.Live c → b <:+ c → c ≠ b → c ∈ nodes

/-- What is below a child is one step less deep. -/
theorem Deep.child {D : NodeTree} {nodes : List (List ℕ)} {b : List ℕ} {i n m : ℕ}
    (h : Deep D nodes b n) (hn : n ≤ m + 1) :
    Deep D (nodes.erase (i :: b)) (i :: b) m where
  le c hc hic := by
    have hle := h.le c hc ((List.suffix_cons i b).trans hic)
    rw [List.length_cons]
    omega
  mem c hc hic hne := by
    refine (List.mem_erase_of_ne hne).mpr (h.mem c hc ((List.suffix_cons i b).trans hic) ?_)
    rintro rfl
    have hlength := hic.length_le
    simp at hlength

theorem Deep.within {J : JSONDatabase} {L : Locale} {D D' : NodeTree} {C C' : Content}
    {nodes nodes' : List (List ℕ)} {b : List ℕ}
    {n : ℕ} (h : Deep D nodes b n) (hw : Within J L D C nodes b D' C' nodes') :
    Deep D' nodes' b n where
  le c hc := h.le c (NodeTree.live_of_sub hw.sub hc)
  mem c hc hbc hne := (hw.mem c).mpr ⟨h.mem c (NodeTree.live_of_sub hw.sub hc) hbc hne, hc⟩

namespace JSON

variable {J : JSONDatabase} {L : Locale} {D : NodeTree} {F : File} {b : List ℕ} {p : Path}
    {nodes : List (List ℕ)}

/-- The end of `clear`, for a node without children. -/
theorem meets_clear_end (h : Indexed J L D F.content nodes) (hplain : D.Plain L)
    (hp : F.content.place (.node b .self) = some p.index)
    (hkeys : ∀ i, D.key b i = none) :
    Meets (fun _ => do removeObject J L p; p.clearNow) F fun _ F' =>
      Cleared J L D F.content nodes b (D.bare b) F'.content nodes := by
  have hb := h.live_of_place hp
  refine Meets.bind (meets_removeObject (L := L) h.toHolds hp) ?_
  rintro _ F₁ - ⟨h₁, hobject⟩
  have hplace₁ : ∀ c, F₁.content.place (.node c .self) = F.content.place (.node c .self) :=
    fun c => h₁.place (by simp)
  have hold₁ : Holds J D F₁.content := h.toHolds.of_sameBut (h₁.mono fun _ => Spot.OfBounds.aside)
  refine (Path.meets_clear (s := .node b .self) (by rw [hplace₁]; exact hp)).mono ?_
  rintro _ F₂ - hclear
  have h₂ : F₂.content = F₁.content.bare b := hclear
  have hplace₂ : ∀ c, F₂.content.place (.node c .self) = F.content.place (.node c .self) := by
    intro c
    rw [h₂, hold₁.bare_place_self hkeys, hplace₁]
  have hindex₂ : F₂.content.index = F.content.index :=
    funext fun c => by rw [Content.index, Content.index, hplace₂]
  have hold₂ : Holds J (D.bare b) F₂.content := h₂ ▸ hold₁.bare F₁.sound hkeys
  have hbounds : Bounds L (D.bare b) F₂.content := by
    refine h.bounds.bare h.toHolds hkeys hp F.sound.inj
      (fun c hc he => h.toHolds.id_injective hplain hc hb he) hplace₂ fun x k => ?_
    rw [h₂, Content.bare_place (by simp), hobject]
  have hentries : nodes.flatMap ((D.bare b).entries L F₂.content.index) = nodes.flatMap
    (D.entries L F.content.index) := by
    rw [hindex₂]
    exact List.flatMap_congr fun c _ => NodeTree.SameWay.entries L ⟨fun _ => rfl, fun _ => rfl⟩
  have hcounts : Words L (D.bare b) F₂.content nodes := by
    constructor
    case nodup => exact h.counts.nodup
    case live => exact fun c hc => (NodeTree.live_bare c).mpr (h.counts.live c hc)
    case tally =>
      intro w k
      rw [Content.tally, h₂, Content.bare_data (by simp), ← h₂, h₁.data (by simp), hentries]
      exact h.counts.tally w k
    case place =>
      intro w k
      rw [h₂, Content.bare_place (by simp), ← h₂, h₁.place (by simp), hentries]
      exact h.counts.place w k
    case word =>
      intro w
      rw [h₂, Content.bare_place (by simp), ← h₂, h₁.place (by simp), hentries]
      exact h.counts.word w
  refine ⟨⟨⟨hold₂, hbounds, hcounts⟩, fun c => ?_, fun hd => hd, fun {c τ} hτ => ?_, fun {q y} hy =>
    ?_, fun _ _ => rfl, fun {c} hc => ?_,
    fun {c} part hc => ?_, hplace₂ b⟩, hkeys, NodeTree.bare_type_self, NodeTree.bare_count_self⟩
  · exact (and_iff_left_of_imp fun hc => (NodeTree.live_bare c).mpr (h.counts.live c hc)).symm
  · by_cases he : c = b
    · rw [he, NodeTree.bare_type_self] at hτ
      cases hτ
    · rwa [NodeTree.bare_type_of_ne he] at hτ
  · rwa [h₂, Content.bare_place (by simp), h₁.place (by simp)] at hy
  · refine NodeTree.bare_type_of_ne ?_
    rintro rfl
    exact hc (List.suffix_refl _)
  · have hne : ∀ c' part', b <:+ c' → Spot.node c part ≠ .node c' part' := by
      rintro c' part' hbc he
      cases he
      exact hc hbc
    rw [h₂, Content.bare_place hne, h₁.place (by simp)]

theorem meets_nextChild (h : Indexed J L D F.content nodes)
    (hs : (F.content.place (.node b .children)).isSome) {c : Walk Path}
    {w : List Bool} (hc : File.Cursor F (.node b .children) c w) (hw : w = [] ∨ IsCode w)
    (hahead : ∀ j, (D.key b j).isSome → Ahead w (encode j)) (hb : D.Live b) :
    Meets (fun fuel => (c.nextNow fuel : DatabaseM (Option ℕ × Walk Path))) F fun r F' => F' = F ∧
      NextChild F D b r := by
  have hlive : ∀ j, (F.content.place (.node (j :: b) .self)).isSome ↔ (D.key b j).isSome := fun j =>
    (h.live _).trans (and_iff_right hb)
  refine (hc.meets_nextNow (Spot.Lists.children b) hs hw).mono ?_
  rintro ⟨found, c'⟩ F' - ⟨rfl, hnext⟩
  refine ⟨rfl, ?_⟩
  cases found with
  | none =>
    refine Or.inl ⟨rfl, fun j => ?_⟩
    by_contra hne
    have hsome := Option.isSome_iff_ne_none.mpr hne
    exact hnext j ((hlive j).mpr hsome) (hahead j hsome)
  | some j =>
    obtain ⟨hj, -, hcursor, hmin⟩ := hnext
    exact Or.inr ⟨j, rfl, (hlive j).mp hj, hcursor, fun k hk => hmin k ((hlive k).mpr hk)
      (hahead k hk)⟩

/-- The loop of `clear` over the properties of an object, from the first one
that is left. -/
theorem meets_clearProperties {n N : ℕ}
    (hdelete : ∀ {D : NodeTree} {F : File} {nodes : List (List ℕ)} {i : ℕ} {name : BString},
      Indexed J L D F.content nodes →
      D.Simple L → F.content.place (.node b .self) = some p.index →
        D.key b i = some (.string name) → Deep D nodes b n →
        Meets (fun fuel => deleteProperty J L fuel p name) F fun _ F' =>
          ∃ D' nodes', Deleted J L D F.content nodes b i D' F'.content nodes') :
    ∀ (m : ℕ) {D : NodeTree} {F : File} {nodes : List (List ℕ)} {r : Option ℕ × Walk Path},
      Indexed J L D F.content nodes →
      D.Simple L → F.content.place (.node b .self) = some p.index → D.type b = some .object →
        (F.content.place (.node b .children)).isSome → Deep D nodes b n →
          (∀ j, (D.key b j).isSome → j ≤ N ∧ N < j + m) →
          NextChild F D b r → Meets (fun fuel => clearProperties J L fuel p r) F fun _ F' =>
            ∃ D' nodes', Within J L D F.content nodes b D' F'.content nodes' ∧
              ∀ j, D'.key b j = none := by
  intro m
  induction m with
  | zero =>
    rintro D F nodes ⟨found, c⟩ h hsimple hp hτ hs hdeep hN hnext
    rcases hnext with ⟨hfound, hkeys⟩ | ⟨j, -, hj, -⟩
    · obtain rfl : found = none := hfound
      refine Meets.step (Meets.ret ?_) fun fuel => clearProperties.eq_2 J L p fuel c
      exact ⟨D, nodes, .refl h, hkeys⟩
    · have hle := hN j hj
      omega
  | succ m ih =>
    rintro D F nodes ⟨found, c⟩ h hsimple hp hτ hs hdeep hN hnext
    rcases hnext with ⟨hfound, hkeys⟩ | ⟨j, hfound, hj, hcursor, hmin⟩
    · obtain rfl : found = none := hfound
      refine Meets.step (Meets.ret ?_) fun fuel => clearProperties.eq_2 J L p fuel c
      exact ⟨D, nodes, .refl h, hkeys⟩
    obtain rfl : found = some j := hfound
    have hnot : ¬ j :: b <:+ b := fun hs => by simpa using hs.length_le
    obtain ⟨d, hd⟩ := Option.isSome_iff_exists.mp hj
    obtain ⟨name, rfl⟩ : ∃ name, d = .string name := by
      cases d with
      | string name => exact ⟨name, rfl⟩
      | integer k =>
        rw [(h.sound.integer hd).1] at hτ
        cases hτ
    refine Meets.step ?_ fun fuel => clearProperties.eq_3 J L p fuel j c
    refine Meets.bind (meets_getObjectProperty h.toHolds hp hd) ?_
    rintro _ F' - ⟨rfl, rfl⟩
    refine Meets.bind (hdelete h hsimple hp hd hdeep) ?_
    rintro _ F₁ he ⟨D₁, nodes₁, h₁⟩
    have hw := Within.of_deleted h₁
    have hchildren : F₁.content.place (.node b .children) = F'.content.place (.node b .children) :=
      h₁.frame .children hnot fun _ => Or.inr rfl
    have hs₁ : (F₁.content.place (.node b .children)).isSome := hchildren ▸ hs
    have hcursor₁ : File.Cursor F₁ (.node b .children) c (encode j) := by
      refine hcursor.evolves he hs₁ fun t k ht hk => ?_
      rcases Spot.children_under ht with rfl | ⟨i, e, part, hie, rfl⟩
      · rwa [hchildren] at hk
      · by_cases hje : j :: b <:+ e
        · rw [h₁.dropped part hje] at hk
          cases hk
        · rw [h₁.frame part hje] at hk
          · exact hk
          · rintro rfl
            have hlength := hie.length_le
            simp at hlength
    have hahead : ∀ k, (D₁.key b k).isSome → j < k := by
      intro k hk
      obtain ⟨e, hke⟩ := Option.isSome_iff_exists.mp hk
      have hle := hmin k (by rw [h₁.sub hke]; rfl)
      have hne : k ≠ j := by
        rintro rfl
        rw [h₁.gone] at hke
        cases hke
      omega
    have hb₁ : D₁.Live b := h₁.indexed.live_of_place (hw.self.trans hp)
    refine Meets.bind (meets_nextChild h₁.indexed hs₁ hcursor₁ (Or.inr (LawfulEncoded.isCode j))
      (fun k hk => Or.inr (rightOf_encode.mpr (hahead k hk))) hb₁) ?_
    rintro r F₂ - ⟨rfl, hnext₁⟩
    refine (ih h₁.indexed (hsimple.of_sub h₁.sub h₁.subType) (hw.self.trans hp)
      ((h₁.type hnot).trans hτ) hs₁ (hdeep.within hw)
      (fun k hk => ?_) hnext₁).mono ?_
    · obtain ⟨e, hke⟩ := Option.isSome_iff_exists.mp hk
      have hle := hN k (by rw [h₁.sub hke]; rfl)
      have hN' := hN j hj
      have hlt := hahead k hk
      omega
    · rintro _ F₃ - ⟨D₃, nodes₃, h₃, hkeys⟩
      exact ⟨D₃, nodes₃, hw.trans h₃, hkeys⟩

/-- `clear`, with what deleting the properties comes to. -/
theorem meets_clear_of_deleteProperty {n : ℕ}
    (hdelete : ∀ {D : NodeTree} {F : File} {nodes : List (List ℕ)} {i : ℕ} {name : BString},
      Indexed J L D F.content nodes →
      D.Simple L → F.content.place (.node b .self) = some p.index →
        D.key b i = some (.string name) → Deep D nodes b n →
        Meets (fun fuel => deleteProperty J L fuel p name) F fun _ F' =>
          ∃ D' nodes', Deleted J L D F.content nodes b i D' F'.content nodes')
    (h : Indexed J L D F.content nodes) (hsimple : D.Simple L)
    (hp : F.content.place (.node b .self) = some p.index)
    (hdeep : Deep D nodes b n) : Meets (fun fuel => clear J L fuel p) F fun _ F' =>
      ∃ D' nodes', Cleared J L D F.content nodes b D' F'.content nodes' := by
  have hleaf : D.type b ≠ some .object → Meets (fun _ => do removeObject J L p; p.clearNow)
    F fun _ F' =>
      ∃ D' nodes', Cleared J L D F.content nodes b D' F'.content nodes' := by
    intro hobject
    refine (meets_clear_end h hsimple.plain hp fun i => ?_).mono fun _ _ _ hc => ⟨_, _, hc⟩
    by_contra hne
    obtain ⟨d, hd⟩ := Option.ne_none_iff_exists'.mp hne
    cases d with
    | string name => exact hobject (h.sound.string hd)
    | integer j => exact hsimple.array b (h.sound.integer hd).1
  refine Meets.step ?_ fun fuel => clear.eq_2 J L p fuel
  refine Meets.bind (meets_type h.toHolds hp) ?_
  rintro τ F' - ⟨rfl, rfl⟩
  cases hτ : D.type b with
  | none => exact hleaf (by simp [hτ])
  | some τ =>
    cases τ with
    | string => exact absurd hτ (hsimple.string b)
    | array => exact absurd hτ (hsimple.array b)
    | object =>
      refine Meets.bind (Path.meets_walk (Spot.up_children b) hp) ?_
      rintro children F₁ - ⟨h₁, -⟩
      have hindexed₁ : Indexed J L D F₁.content nodes := h₁ ▸ h.make_children b children.index
      have hplace₁ : ∀ c part, ¬ (c = b ∧ part = .children) → F₁.content.place (.node c part) =
        F'.content.place (.node c part) := by
        intro c part hne
        rw [h₁, Content.make_place_of_ne (by simpa using hne)]
      have hp₁ : F₁.content.place (.node b .self) = some p.index := by
        rw [hplace₁ _ _ (by simp), hp]
      have hchildren₁ : F₁.content.place (.node b .children) = some children.copy.index := by
        rw [h₁, Content.make_place_self]; rfl
      have hw₁ : Within J L D F'.content nodes b D F₁.content nodes := by
        refine ⟨hindexed₁, fun c => (and_iff_left_of_imp (h.counts.live c)).symm, fun hd => hd,
          fun hτ => hτ, fun {q y} hy => ?_,
          fun _ _ => rfl, fun _ => rfl, fun {c} part hc => hplace₁ c part ?_,
            hplace₁ b .self (by simp)⟩
        · rwa [h₁, Content.make_place_of_ne (by simp)] at hy
        · rintro ⟨rfl, -⟩
          exact hc (List.suffix_refl _)
      have hget : Meets (fun _ => (get : DatabaseM Database)) F₁ fun _ F₂ => F₂ = F₁ :=
        .of_run (a := F₁.db) rfl (View.refl F₁) rfl
      refine Meets.bind hget ?_
      rintro db F₂ - rfl
      refine Meets.bind (meets_nextChild hindexed₁ (by rw [hchildren₁]; rfl)
        (File.Cursor.start hchildren₁ db) (Or.inl rfl)
        (fun _ _ => Or.inl rfl) (h.live_of_place hp)) ?_
      rintro r F₃ - ⟨rfl, hnext⟩
      refine Meets.bind (meets_clearProperties (N := D.count b) hdelete (D.count b)
        hindexed₁ hsimple hp₁ hτ (by rw [hchildren₁]; rfl)
        (hdeep.within hw₁) (fun j hj => ?_) hnext) ?_
      · obtain ⟨d, hd⟩ := Option.isSome_iff_exists.mp hj
        have hle := h.sound.le hd
        omega
      rintro _ F₄ - ⟨D₄, nodes₄, hw₄, hkeys⟩
      have hsimple₄ := hsimple.of_sub hw₄.sub hw₄.subType
      refine (meets_clear_end hw₄.indexed hsimple₄.plain (hw₄.self.trans hp₁) hkeys).mono ?_
      rintro _ F₅ - h₅
      exact ⟨_, _, (hw₁.trans hw₄).trans h₅.toWithin, h₅.bareKey, h₅.bareType, h₅.bareCount⟩
    | _ => exact hleaf (by simp [hτ])

/-- `clear` of a node and what is below it, at most `n` steps deep. -/
theorem meets_clear :
    ∀ (n : ℕ) {D : NodeTree} {F : File} {b : List ℕ} {p : Path} {nodes : List (List ℕ)},
      Indexed J L D F.content nodes →
    D.Simple L → F.content.place (.node b .self) = some p.index → Deep D nodes b n →
      Meets (fun fuel => clear J L fuel p) F fun _ F' =>
      ∃ D' nodes', Cleared J L D F.content nodes b D' F'.content nodes' := by
  intro n
  induction n with
  | zero =>
    intro D F b p nodes
    refine meets_clear_of_deleteProperty fun {D F nodes i name} h _ _ hi hdeep => ?_
    have hle := hdeep.le (i :: b) (h.sound.live_of_key hi) (List.suffix_cons i b)
    simp at hle
  | succ n ih =>
    intro D F b p nodes
    refine meets_clear_of_deleteProperty fun {D F nodes i name} h hsimple hp hi hdeep => ?_
    have hlive := h.sound.live_of_key hi
    refine meets_deleteProperty_of_clear h hp hi
      (hdeep.mem _ hlive (List.suffix_cons i b) (by simp)) fun h₁ hq => ?_
    exact ih h₁ hsimple hq (hdeep.child le_rfl)

/-- `deleteProperty` of a property, with everything below it. -/
theorem meets_deleteProperty {n : ℕ} {i : ℕ} {name : BString} (h : Indexed J L D F.content nodes)
    (hsimple : D.Simple L)
    (hp : F.content.place (.node b .self) = some p.index) (hi : D.key b i = some (.string name))
    (hdeep : Deep D nodes b n) :
    Meets (fun fuel => deleteProperty J L fuel p name) F fun _ F' =>
      ∃ D' nodes', Deleted J L D F.content nodes b i D' F'.content nodes' := by
  have hlive := h.sound.live_of_key hi
  refine meets_deleteProperty_of_clear h hp hi (hdeep.mem _ hlive (List.suffix_cons i b) (by simp))
    fun h₁ hq => ?_
  exact meets_clear n h₁ hsimple hq (hdeep.child n.le_succ)

end JSON

end BeeFish
