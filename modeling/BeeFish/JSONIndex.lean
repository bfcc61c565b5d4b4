/-
# The indices of JSON nodes

Two indices go along with the tree of JSON nodes. The bounds index has, by the
index of each node but the root, the ids of the typed nodes at it and below
(`Bounds`). The index of the words counts, by the word and the id of a node,
how often the keys on the way to a node at it or below have the word
(`NodeTree.entries`). What adds to them changes nothing else in the file
(`Content.SameBut`), and says exactly what it adds.

Key definitions: `Content.SameBut`, `Spot.Aside`, `Bounds`, `Content.tally`,
`NodeTree.entries`, `Content.Counted`.
-/
import BeeFish.JSONTree

namespace BeeFish

/-! ### What is left as it was -/

namespace Content

variable {C C' C'' : Content} {E E' : Spot → Prop} {s : Spot}

/-- What is not one of the spots `E` is as it was. -/
def SameBut (E : Spot → Prop) (C C' : Content) : Prop :=
  ∀ s, ¬ E s → C'.place s = C.place s ∧ C'.data s = C.data s

namespace SameBut

theorem refl (E : Spot → Prop) (C : Content) : SameBut E C C := fun _ _ => ⟨rfl, rfl⟩

theorem trans (h : SameBut E C C') (h' : SameBut E C' C'') : SameBut E C C'' := fun s hs =>
  ⟨(h' s hs).1.trans (h s hs).1, (h' s hs).2.trans (h s hs).2⟩

theorem mono (h : SameBut E C C') (hE : ∀ s, E s → E' s) : SameBut E' C C' :=
  fun s hs => h s fun hEs => hs (hE s hEs)

theorem make (hs : E s) (i : ℕ) : SameBut E C (C.make s i) := fun t ht =>
  ⟨make_place_of_ne (by rintro rfl; exact ht hs) i, rfl⟩

theorem put (hs : E s) (data : Option BString) : SameBut E C (C.put s data) := fun t ht =>
  ⟨rfl, put_data_of_ne (by rintro rfl; exact ht hs) data⟩

theorem place (h : SameBut E C C') (hs : ¬ E s) : C'.place s = C.place s := (h s hs).1

theorem data (h : SameBut E C C') (hs : ¬ E s) : C'.data s = C.data s := (h s hs).2

end SameBut

end Content

namespace Spot

/-- The counters of the words, and the marks of the nodes that are counted. -/
@[simp] def OfWords : Spot → Prop
  | word _ => True
  | wordId _ _ => True
  | node _ .cascade => True
  | _ => False

/-- The bounds index. -/
@[simp] def OfBounds : Spot → Prop
  | object _ => True
  | objectId _ _ => True
  | _ => False

/-- The values of the nodes, and what the entries of a table stand below. -/
@[simp] def Loose : Spot → Prop
  | node _ .value => True
  | node _ (.page _) => True
  | node _ .properties => True
  | node _ .positions => True
  | node _ .id => True
  | _ => False

/-- What the tree is not held in. -/
@[simp] def Aside (s : Spot) : Prop := s.OfWords ∨ s.OfBounds ∨ s.Loose

theorem OfWords.not_ofBounds {s : Spot} (h : s.OfWords) : ¬ s.OfBounds := by
  cases s <;> simp_all

theorem OfWords.not_loose {s : Spot} (h : s.OfWords) : ¬ s.Loose := by
  cases s with
  | node a part => cases part <;> simp_all
  | _ => simp_all

theorem OfWords.aside {s : Spot} (h : s.OfWords) : s.Aside := Or.inl h

theorem OfBounds.aside {s : Spot} (h : s.OfBounds) : s.Aside := Or.inr (Or.inl h)

theorem Loose.aside {s : Spot} (h : s.Loose) : s.Aside := Or.inr (Or.inr h)

end Spot

open Spot in
/-- The tree is held as long as what it is held in stays. -/
theorem Holds.of_sameBut {J : JSONDatabase} {D : NodeTree} {C C' : Content} (h : Holds J D C)
    (hs : C.SameBut Spot.Aside C') :
    Holds J D C' := by
  have hplace : ∀ s, ¬ Aside s → C'.place s = C.place s := fun s => hs.place
  have hdata : ∀ s, ¬ Aside s → C'.data s = C.data s := fun s => hs.data
  have hself : ∀ a, C'.place (.node a .self) = C.place (.node a .self) :=
    fun a => hplace _ (by simp)
  have hproperty : ∀ p, C'.place (.property p) = C.place (.property p) :=
    fun p => hplace _ (by simp)
  constructor
  case sound => exact h.sound
  case json => rw [hself]; exact h.json
  case properties => rw [hplace _ (by simp)]; exact h.properties
  case words => rw [hplace _ (by simp)]; exact h.words
  case objects => rw [hplace _ (by simp)]; exact h.objects
  case live => intro a; rw [hself]; exact h.live a
  case type => intro a; rw [hdata _ (by simp)]; exact h.type a
  case count => intro a; rw [hdata _ (by simp)]; exact h.count a
  case entry =>
    intro a i p hp
    obtain ⟨x, hx, hproperties, hposition⟩ := h.entry hp
    refine ⟨x, by rw [hproperty, hx], ?_, ?_⟩
    · rw [hdata _ (by simp), hproperties]
    · rw [hdata _ (by simp), hposition]
  case only =>
    intro a x hx
    rw [hplace _ (by simp)] at hx
    obtain ⟨i, p, hp, hpx⟩ := h.only hx
    exact ⟨i, p, hp, by rw [hproperty, hpx]⟩
  case used =>
    intro p hp
    rw [hproperty] at hp
    exact h.used hp
  case user =>
    intro p x
    rw [hplace _ (by simp), h.user]
    simp only [hself]

theorem Content.SameBut.index {C C' : Content} (hs : C.SameBut Spot.Aside C') :
    C'.index = C.index := by
  funext a
  rw [Content.index, Content.index, hs.place (by simp)]

/-! ### The bounds index -/

/-- Below the index of each node but the root stand the ids of the typed nodes
at it and below. -/
def Bounds (L : Locale) (D : NodeTree) (C : Content) : Prop :=
  ∀ x k, (C.place (.objectId x k)).isSome ↔
  ∃ a b, a ≠ [] ∧ C.place (.node a .self) = some x ∧ a <:+ b ∧ (D.type b).isSome ∧
    k = D.id L C.index b

namespace JSON

variable {J : JSONDatabase} {L : Locale} {D : NodeTree}

/-- An id is added for the node and each of its ancestors but the root. -/
theorem meets_addObjectFrom (key : Key) : ∀ {a : List ℕ} {F : File} {p : Path} {n : ℕ},
    Holds J D F.content →
    F.content.place (.node a .self) = some p.index → a.length < n →
      Meets (fun _ => addObjectFrom J key n p) F fun _ F' =>
        F.content.SameBut Spot.OfBounds F'.content ∧
        ∀ x k, (F'.content.place (.objectId x k)).isSome ↔
          (F.content.place (.objectId x k)).isSome ∨
          k = key ∧ ∃ c, c ≠ [] ∧ c <:+ a ∧ F.content.place (.node c .self) = some x := by
  intro a
  induction a with
  | nil =>
    intro F p n h hp hn
    obtain ⟨n, rfl⟩ : ∃ k, n = k + 1 := ⟨n - 1, by omega⟩
    simp only [addObjectFrom]
    rw [if_pos ((h.isRoot_iff hp).mpr rfl)]
    refine Meets.ret ⟨.refl _ _, fun x k => ?_⟩
    simp
  | cons i a ih =>
    intro F p n h hp hn
    obtain ⟨n, rfl⟩ : ∃ k, n = k + 1 := ⟨n - 1, by omega⟩
    simp only [addObjectFrom]
    rw [if_neg fun hroot => by cases (h.isRoot_iff hp).mp hroot]
    refine Meets.bind (Path.meets_walk (t := .object p.index) rfl h.objects) ?_
    rintro o F₁ - ⟨h₁, -⟩
    refine Meets.bind (Path.meets_walk (t := .objectId p.index key) (s := .object p.index) rfl
      (by rw [h₁]; simp)) ?_
    rintro q F₂ - ⟨h₂, -⟩
    have hsame : F.content.SameBut Spot.OfBounds F₂.content := by
      rw [h₂, h₁]
      exact (Content.SameBut.make trivial _).trans (.make trivial _)
    have hold := h.of_sameBut (hsame.mono fun s => Spot.OfBounds.aside)
    have hself : ∀ b, F₂.content.place (.node b .self) = F.content.place (.node b .self) :=
      fun b => hsame.place not_false
    refine Meets.bind (meets_parent hold (by rw [hself]; exact hp)) ?_
    rintro up F' - ⟨rfl, hup⟩
    refine (ih hold hup (by simpa using hn)).mono ?_
    rintro _ F₃ - ⟨hsame', hadd⟩
    refine ⟨hsame.trans hsame', fun x k => ?_⟩
    rw [hadd]
    simp only [hself]
    have hplace : (F'.content.place (.objectId x k)).isSome ↔
        (F.content.place (.objectId x k)).isSome ∨ x = p.index ∧ k = key := by
      rw [h₂, h₁]
      simp only [Content.make_place, Spot.objectId.injEq, reduceCtorEq, if_false]
      split_ifs with he <;> simp [he]
    rw [hplace]
    constructor
    · rintro ((hx | ⟨rfl, rfl⟩) | ⟨rfl, c, hc, hca, hx⟩)
      · exact Or.inl hx
      · exact Or.inr ⟨rfl, i :: a, by simp, List.suffix_refl _, hp⟩
      · exact Or.inr ⟨rfl, c, hc, hca.trans (List.suffix_cons i a), hx⟩
    · rintro (hx | ⟨rfl, c, hc, hca, hx⟩)
      · exact Or.inl (Or.inl hx)
      · rcases List.suffix_cons_iff.mp hca with rfl | hca
        · exact Or.inl (Or.inr ⟨Option.some.inj (hx.symm.trans hp), rfl⟩)
        · exact Or.inr ⟨rfl, c, hc, hca, hx⟩

theorem meets_addObject {a : List ℕ} {F : File} {p : Path} (h : Holds J D F.content)
    (hp : F.content.place (.node a .self) = some p.index) :
    Meets (fun _ => addObject J L p) F fun _ F' => F.content.SameBut Spot.OfBounds F'.content ∧
      ∀ x k, (F'.content.place (.objectId x k)).isSome ↔ (F.content.place (.objectId x k)).isSome ∨
        k = D.id L F.content.index a ∧ ∃ c, c ≠ [] ∧ c <:+ a ∧
          F.content.place (.node c .self) = some x := by
  refine Meets.bind (meets_id h hp) ?_
  rintro key F' - ⟨rfl, rfl⟩
  exact meets_upwards (meets_addObjectFrom _ h hp (File.length_lt_depth hp))

end JSON

/-! ### The words -/

/-- The words that a key is found by. -/
def keyWords (L : Locale) (name : BString) : List BString := (tokenise L name [] true true).1

namespace NodeTree

variable (D : NodeTree) (L : Locale) (place : List ℕ → ℕ)

/-- The properties on the way from a node to its user, from below. -/
def names : List ℕ → List BString
  | i :: j :: k :: a =>
    match D.key (j :: k :: a) i with
    | some (.string name) => name :: names (j :: k :: a)
    | _ => names (j :: k :: a)
  | _ => []

/-- The ids of a node and its ancestors below the origin, from below. -/
def chain : List ℕ → List Key
  | i :: j :: a => D.id L place (i :: j :: a) :: chain (j :: a)
  | _ => []

/-- What a node has in the index of the words, each time that it counts. -/
def entries (a : List ℕ) : List (BString × Key) :=
  (D.names a).flatMap fun name => (D.chain L place a).flatMap fun key =>
    (keyWords L name).map (·, key)

end NodeTree

namespace Content

/-- The number that a spot has as its data. -/
def tally (C : Content) (s : Spot) : ℕ := ((C.data s).map ofData).getD 0

/-- The words are counted for these ids, and nothing else is changed. -/
structure Counted (C C' : Content) (ts : List (BString × Key)) : Prop where
  same : C.SameBut Spot.OfWords C'
  mark : ∀ {a i}, C.place (.node a .cascade) = some i → C'.place (.node a .cascade) = some i
  tally : ∀ w k, C'.tally (.wordId w k) = C.tally (.wordId w k) + ts.count (w, k)
  place : ∀ w k, (C'.place (.wordId w k)).isSome ↔ (C.place (.wordId w k)).isSome ∨ (w, k) ∈ ts
  word : ∀ w, (C'.place (.word w)).isSome ↔ (C.place (.word w)).isSome ∨ ∃ k, (w, k) ∈ ts

namespace Counted

variable {C C' C'' : Content} {ts us : List (BString × Key)}

theorem nil (C : Content) : Counted C C [] := ⟨.refl _ _, fun h => h, by simp, by simp, by simp⟩

theorem append (h : Counted C C' ts) (h' : Counted C' C'' us) : Counted C C'' (ts ++ us) where
  same := h.same.trans h'.same
  mark hm := h'.mark (h.mark hm)
  tally w k := by
    rw [h'.tally, h.tally, List.count_append]
    omega
  place w k := by rw [h'.place, h.place, List.mem_append, or_assoc]
  word w := by
    rw [h'.word, h.word, or_assoc, ← exists_or]
    simp only [List.mem_append]

theorem holds {J : JSONDatabase} {D : NodeTree} (h : Counted C C' ts) (hold : Holds J D C) :
    Holds J D C' :=
  hold.of_sameBut (h.same.mono fun _ => Spot.OfWords.aside)

theorem index (h : Counted C C' ts) : C'.index = C.index :=
  (h.same.mono fun _ => Spot.OfWords.aside).index

theorem node (h : Counted C C' ts) (a : List ℕ) :
    C'.place (.node a .self) = C.place (.node a .self) :=
  h.same.place not_false

end Counted

end Content

open Content in
/-- `operator ++` counts one up. -/
theorem Path.meets_increment {F : File} {s : Spot} {p : Path}
    (hp : F.content.place s = some p.index) :
    Meets (fun _ => p.increment) F fun n F' => n = F.content.tally s + 1 ∧
      F'.content = F.content.put s (some (toData (F.content.tally s + 1))) := by
  have hcount : Meets (fun _ => do
      if ← p.hasDataNow then return (← p.getDataAs ℕ) + 1 else return 1) F fun n F' =>
      F' = F ∧ n = F.content.tally s + 1 := by
    refine Meets.bind (meets_hasData hp) ?_
    rintro b F' - ⟨rfl, rfl⟩
    unfold tally
    cases hdata : F'.content.data s with
    | none => exact Meets.ret ⟨rfl, rfl⟩
    | some d =>
      refine Meets.bind (meets_getData hp) ?_
      rintro n F₁ - ⟨rfl, rfl⟩
      refine Meets.ret ⟨rfl, ?_⟩
      rw [hdata]
      rfl
  refine Meets.bind hcount ?_
  rintro n F' - ⟨rfl, rfl⟩
  refine Meets.bind (meets_setData hp _) ?_
  rintro _ F₁ - h₁
  exact Meets.ret ⟨rfl, h₁⟩

theorem Content.tally_put (C : Content) (s t : Spot) (n : ℕ) :
    (C.put s (some (toData n))).tally t = if t = s then n else C.tally t := by
  unfold Content.tally
  rw [Content.put_data]
  split_ifs
  · exact ofData_toData n
  · rfl

@[simp] theorem Content.tally_make (C : Content) (s t : Spot) (i : ℕ) :
    (C.make s i).tally t = C.tally t :=
  rfl

namespace JSON

variable {J : JSONDatabase} {L : Locale} {D : NodeTree}

/-- What `addWords` does for one word and one node. -/
theorem meets_addToken (word : BString) {a : List ℕ} {F : File} {p : Path} (h : Holds J D F.content)
    (hp : F.content.place (.node a .self) = some p.index) :
    Meets (fun _ => do
      let wordPath ← J.words.walk (.of word)
      let _ ← wordPath.increment
      let _ ← (← wordPath.walk (← id J L p)).increment) F fun _ F' =>
        F.content.Counted F'.content [(word, D.id L F.content.index a)] := by
  refine Meets.bind (Path.meets_walk (t := .word word) rfl h.words) ?_
  rintro q F₁ - ⟨h₁, -⟩
  refine Meets.bind (Path.meets_increment (s := .word word) (by rw [h₁]; simp)) ?_
  rintro _ F₂ - ⟨-, h₂⟩
  have hsame : F.content.SameBut Spot.OfWords F₂.content := by
    rw [h₂, h₁]
    exact (Content.SameBut.make trivial _).trans (.put trivial _)
  have hold := h.of_sameBut (hsame.mono fun _ => Spot.OfWords.aside)
  have hself : F₂.content.place (.node a .self) = F.content.place (.node a .self) :=
    hsame.place not_false
  refine Meets.bind (meets_id hold (hself.trans hp)) ?_
  rintro key F' - ⟨rfl, rfl⟩
  rw [(hsame.mono fun _ => Spot.OfWords.aside).index]
  refine Meets.bind (Path.meets_walk (t := .wordId word _) (s := .word word) rfl
    (by rw [h₂, h₁]; simp)) ?_
  rintro r F₃ - ⟨h₃, -⟩
  refine Meets.bind (Path.meets_increment (s := .wordId word (D.id L F.content.index a))
    (by rw [h₃]; simp)) ?_
  rintro _ F₄ - ⟨-, h₄⟩
  refine Meets.ret ⟨?_, fun hm => ?_, fun w k => ?_, fun w k => ?_, fun w => ?_⟩
  · rw [h₄, h₃]
    exact hsame.trans ((Content.SameBut.make trivial _).trans (.put trivial _))
  · rw [h₄, h₃, h₂, h₁]
    simpa [Content.make_place] using hm
  · rw [h₄, Content.tally_put, h₃, h₂, h₁, List.count_singleton]
    simp only [Content.tally_make, Content.tally_put, Spot.wordId.injEq, reduceCtorEq, if_false,
      beq_iff_eq, Prod.mk.injEq,
      eq_comm (a := word), eq_comm (a := D.id L F.content.index a)]
    split_ifs with he
    · obtain ⟨rfl, rfl⟩ := he
      rfl
    · rfl
  · rw [h₄, h₃, h₂, h₁]
    simp only [Content.put_place, Content.make_place, Spot.wordId.injEq, reduceCtorEq, if_false,
      List.mem_singleton,
      Prod.mk.injEq]
    split_ifs with he <;> simp [he]
  · rw [h₄, h₃, h₂, h₁]
    simp only [Content.put_place, Content.make_place, Spot.word.injEq, reduceCtorEq, if_false,
      List.mem_singleton,
      Prod.mk.injEq, exists_and_left, exists_eq, and_true]
    split_ifs with he <;> simp [he]

theorem meets_addTokens_node {a : List ℕ} {p : Path} : ∀ (tokens : List BString) {F : File},
    Holds J D F.content →
    F.content.place (.node a .self) = some p.index →
      Meets (fun _ => tokens.forM fun word => do
        let wordPath ← J.words.walk (.of word)
        let _ ← wordPath.increment
        let _ ← (← wordPath.walk (← id J L p)).increment) F fun _ F' =>
          F.content.Counted F'.content (tokens.map (·, D.id L F.content.index a))
  | [], F, _, _ => Meets.ret (.nil _)
  | word :: tokens, F, h, hp => by
    simp only [List.forM_eq_forM, List.forM_cons]
    refine Meets.bind (meets_addToken word h hp) ?_
    rintro _ F₁ - h₁
    have hrest := meets_addTokens_node tokens (h₁.holds h) (by rw [h₁.node]; exact hp)
    refine hrest.mono ?_
    rintro _ F₂ - h₂
    rw [h₁.index] at h₂
    exact h₁.append h₂

/-- The words are counted for the node and its ancestors below the origin. -/
theorem meets_addTokens (tokens : List BString) : ∀ {a : List ℕ} {F : File} {p : Path} {n : ℕ},
    Holds J D F.content →
    F.content.place (.node a .self) = some p.index → a.length < n →
      Meets (fun _ => addTokens J L tokens n p) F fun _ F' =>
        F.content.Counted F'.content ((D.chain L F.content.index a).flatMap fun key =>
          tokens.map (·, key)) := by
  intro a
  induction a with
  | nil =>
    intro F p n h hp hn
    obtain ⟨n, rfl⟩ : ∃ k, n = k + 1 := ⟨n - 1, by omega⟩
    simp only [addTokens]
    rw [if_pos ((h.isRoot_iff hp).mpr rfl)]
    exact Meets.ret (.nil _)
  | cons i a ih =>
    intro F p n h hp hn
    obtain ⟨n, rfl⟩ : ∃ k, n = k + 1 := ⟨n - 1, by omega⟩
    simp only [addTokens]
    rw [if_neg fun hroot => by cases (h.isRoot_iff hp).mp hroot]
    refine Meets.bind (meets_parent h hp) ?_
    rintro up F' - ⟨rfl, hup⟩
    cases a with
    | nil =>
      rw [if_pos ((h.isRoot_iff hup).mpr rfl)]
      exact Meets.ret (.nil _)
    | cons j a =>
      rw [if_neg fun hroot => by cases (h.isRoot_iff hup).mp hroot]
      refine Meets.bind (meets_addTokens_node tokens h hp) ?_
      rintro _ F₁ - h₁
      have hold := h₁.holds h
      refine Meets.bind (meets_parent hold (by rw [h₁.node]; exact hp)) ?_
      rintro up' F'' - ⟨rfl, hup'⟩
      refine (ih hold hup' (by simpa using hn)).mono ?_
      rintro _ F₂ - h₂
      rw [h₁.index] at h₂
      exact h₁.append h₂

theorem meets_addWords (name : BString) {a : List ℕ} {F : File} {p : Path} (h : Holds J D F.content)
    (hp : F.content.place (.node a .self) = some p.index) :
    Meets (fun _ => addWords J L p name [] true true) F fun _ F' =>
      F.content.Counted F'.content ((D.chain L F.content.index a).flatMap fun key =>
        (keyWords L name).map (·, key)) := by
  refine Meets.bind
    (meets_upwards (meets_addTokens (keyWords L name) h hp (File.length_lt_depth hp))) ?_
  rintro _ F' - h'
  exact Meets.ret h'

/-- The words of the keys on the way from a node are counted for another one,
in practice for the node itself. -/
theorem meets_indexPropertiesFrom {a : List ℕ} {p : Path} :
    ∀ {b : List ℕ} {F : File} {q : Path} {n : ℕ}, Holds J D F.content →
    F.content.place (.node a .self) = some p.index → F.content.place (.node b .self) =
      some q.index → b.length < n →
      Meets (fun _ => indexPropertiesFrom J L p n q) F fun _ F' => F.content.Counted F'.content
        ((D.names b).flatMap fun name => (D.chain L F.content.index a).flatMap fun key =>
          (keyWords L name).map (·, key)) := by
  intro b
  induction b with
  | nil =>
    intro F q n h hp hq hn
    obtain ⟨n, rfl⟩ : ∃ k, n = k + 1 := ⟨n - 1, by omega⟩
    simp only [indexPropertiesFrom]
    refine Meets.bind (meets_isUserRoot h hq) ?_
    rintro _ F' - ⟨rfl, rfl⟩
    exact Meets.ret (.nil _)
  | cons i b ih =>
    intro F q n h hp hq hn
    obtain ⟨n, rfl⟩ : ∃ k, n = k + 1 := ⟨n - 1, by omega⟩
    simp only [indexPropertiesFrom]
    refine Meets.bind (meets_isUserRoot h hq) ?_
    rintro _ F' - ⟨rfl, rfl⟩
    rcases b with - | ⟨j, - | ⟨k, b⟩⟩
    · exact Meets.ret (.nil _)
    · exact Meets.ret (.nil _)
    rw [if_neg (by simp)]
    obtain ⟨c, hc⟩ := Option.isSome_iff_exists.mp (h.live_of_place hq).2
    refine Meets.bind (meets_parentKey h hq hc) ?_
    rintro ⟨key, up⟩ F'' - ⟨rfl, rfl, hup⟩
    simp only [NodeTree.names, hc]
    cases key with
    | integer m => exact ih h hp hup (by simpa using hn)
    | string name =>
      refine Meets.bind (meets_addWords name h hp) ?_
      rintro _ F₁ - h₁
      refine (ih (h₁.holds h) (by rw [h₁.node]; exact hp) (by rw [h₁.node]; exact hup)
        (by simpa using hn)).mono ?_
      rintro _ F₂ - h₂
      rw [h₁.index] at h₂
      exact h₁.append h₂

/-- A node that has no mark yet is counted. -/
theorem meets_indexProperties {a : List ℕ} {F : File} {p : Path} (h : Holds J D F.content)
    (hp : F.content.place (.node a .self) = some p.index)
    (hmark : F.content.data (.node a .cascade) = none) :
    Meets (fun _ => indexProperties J L p) F fun _ F' =>
      F.content.Counted F'.content (D.entries L F.content.index a) := by
  refine Meets.bind (Path.meets_walk (Spot.up_cascade a) hp) ?_
  rintro q F₁ - ⟨h₁, hq⟩
  have hcount₁ : F.content.Counted F₁.content [] := by
    rw [h₁]
    refine ⟨.make trivial _, fun {b i} hm => ?_, fun w k => by simp, fun w k => ?_, fun w => ?_⟩
    · rw [Content.make_place]
      split_ifs with hb
      · rw [hb] at hm
        rcases hq with hq | ⟨hq, -⟩
        · exact hq.symm.trans hm
        · rw [hq] at hm
          cases hm
      · exact hm
    · simp
    · simp
  have hq₁ : F₁.content.place (.node a .cascade) = some q.index := by
    rw [h₁, Content.make_place_self]
  refine Meets.bind (Path.meets_hasData hq₁) ?_
  rintro _ F' - ⟨rfl, rfl⟩
  rw [h₁, Content.make_data, hmark]
  have hp₁ : F'.content.place (.node a .self) = some p.index := by rw [hcount₁.node]; exact hp
  have hrest := meets_upwards (f := fun n => indexPropertiesFrom J L p n p)
    (meets_indexPropertiesFrom (hcount₁.holds h) hp₁ hp₁ (File.length_lt_depth hp₁))
  refine Meets.bind hrest ?_
  rintro _ F₂ - h₂
  refine (Path.meets_setData (h₂.mark hq₁) true).mono ?_
  rintro _ F₃ - h₃
  rw [hcount₁.index] at h₂
  have h₁₂ := hcount₁.append h₂
  rw [h₃]
  refine ⟨h₁₂.same.trans (.put trivial _), h₁₂.mark, fun w k => ?_, h₁₂.place, h₁₂.word⟩
  have hne : Spot.wordId w k ≠ .node a .cascade := by simp
  rw [Content.tally, Content.put_data_of_ne hne]
  exact h₁₂.tally w k

end JSON

end BeeFish
