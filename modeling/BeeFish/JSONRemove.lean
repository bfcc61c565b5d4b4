/-
# Taking words back

Before a property is deleted, `removeWords` counts down what `addWords` counted
for its node: each word of each property on the way, for the node and its
ancestors. An id whose count comes to zero is cleared, and with its last id the
word goes (`JSON.meets_removeId`), while the loop still holds a path on it.
So the index of the words is then exact for the other nodes
(`JSON.meets_removeProperties`).

Key definitions: `Content.Tallied`, `Content.Discounted`, `File.OnWord`.
-/
import BeeFish.JSONRun
import Mathlib.Data.Multiset.Bind

namespace BeeFish

/-! ### Counting down -/

namespace Spot

/-- The counters of the words. -/
@[simp] def OfCounters : Spot → Prop
  | word _ => True
  | wordId _ _ => True
  | _ => False

theorem OfCounters.ofWords {s : Spot} (h : s.OfCounters) : s.OfWords := by
  cases s <;> simp_all

/-! ### Below a spot -/

/-- Below the parts of nodes stand parts of nodes only. -/
theorem not_under_node {s : Spot} (hroot : s ≠ root) (hnode : ∀ a part, s ≠ node a part)
    (b : List ℕ) (part : NodePart) :
    ¬ s.Under (node b part) := by
  have hself : ¬ s.Under (node b .self) := by simp [hroot, hnode]
  by_cases hpart : part = .self
  · rwa [hpart]
  · simp [under_part hpart, hnode, hself]

variable {t : Spot}

theorem wordId_under {w : BString} {k : Key} : (wordId w k).Under t ↔ t = wordId w k := by
  cases t with
  | node b part => simpa using not_under_node (by simp) (by simp) b part
  | _ => simp [eq_comm]

theorem word_under {w : BString} : (word w).Under t ↔ t = word w ∨ ∃ k, t = wordId w k := by
  cases t with
  | node b part => simpa using not_under_node (by simp) (by simp) b part
  | _ => simp [eq_comm]

theorem user_under {p : BString} {x : ℕ} : (user p x).Under t ↔ t = user p x := by
  cases t with
  | node b part => simpa using not_under_node (by simp) (by simp) b part
  | _ => simp [eq_comm]

theorem property_under {p : BString} : (property p).Under t ↔ t = property p ∨
    ∃ x, t = user p x := by
  cases t with
  | node b part => simpa using not_under_node (by simp) (by simp) b part
  | _ => simp [eq_comm]

theorem objectId_under {x : ℕ} {k : Key} : (objectId x k).Under t ↔ t = objectId x k := by
  cases t with
  | node b part => simpa using not_under_node (by simp) (by simp) b part
  | _ => simp [eq_comm]

theorem object_under {x : ℕ} : (object x).Under t ↔ t = object x ∨ ∃ k, t = objectId x k := by
  cases t with
  | node b part => simpa using not_under_node (by simp) (by simp) b part
  | _ => simp [eq_comm]

theorem entry_under {a : List ℕ} {x : ℕ} : (node a (.property x)).Under t ↔
    t = node a (.property x) := by
  cases t with
  | node b part =>
    by_cases hpart : part = .self
    · simp [hpart]
    · rw [under_part hpart]
      cases part <;> simp [above, eq_comm]
  | _ => simp

/-- Below a node stand the parts of the nodes at it and below. -/
theorem self_under {a : List ℕ} : (node a .self).Under t ↔ ∃ b part, a <:+ b ∧ t = node b part := by
  cases t with
  | node b part => simp [node_under]
  | _ => simp

end Spot

namespace Content

theorem SameBut.drop {E P : Spot → Prop} {C : Content} (h : ∀ s, P s → E s) :
    SameBut E C (C.drop P) :=
  fun s hs =>
  ⟨drop_place_of_not fun hp => hs (h s hp), drop_data_of_not fun hp => hs (h s hp)⟩

/-- A word and an id are there as long as they count, and a word as long as it
has an id. -/
structure Tallied (C : Content) : Prop where
  place : ∀ w k, (C.place (.wordId w k)).isSome ↔ 0 < C.tally (.wordId w k)
  word : ∀ w, (C.place (.word w)).isSome ↔ ∃ k, (C.place (.wordId w k)).isSome

/-- The words are counted down for these ids, and nothing else is changed. -/
structure Discounted (C C' : Content) (ts : List (BString × Key)) : Prop where
  same : C.SameBut Spot.OfCounters C'
  tallied : C'.Tallied
  tally : ∀ w k, C'.tally (.wordId w k) = C.tally (.wordId w k) - ts.count (w, k)

namespace Discounted

variable {C C' C'' : Content} {ts us : List (BString × Key)}

/-- There is nothing to count. -/
theorem of_zero (h : C.Tallied) (hzero : ∀ t ∈ ts, C.tally (.wordId t.1 t.2) = 0) :
    Discounted C C ts where
  same := .refl _ _
  tallied := h
  tally w k := by
    by_cases ht : (w, k) ∈ ts
    · have h0 := hzero _ ht
      dsimp only at h0
      omega
    · rw [List.count_eq_zero_of_not_mem ht, Nat.sub_zero]

theorem nil (h : C.Tallied) : Discounted C C [] := of_zero h (by simp)

theorem append (h : Discounted C C' ts) (h' : Discounted C' C'' us) :
    Discounted C C'' (ts ++ us) where
  same := h.same.trans h'.same
  tallied := h'.tallied
  tally w k := by
    rw [h'.tally, h.tally, List.count_append]
    omega

/-- The order of the ids does not matter. -/
theorem congr (h : Discounted C C' ts) (hcount : ∀ t, ts.count t = us.count t) :
    Discounted C C' us :=
  ⟨h.same, h.tallied, fun w k => by rw [h.tally, hcount]⟩

theorem aside (h : Discounted C C' ts) : C.SameBut Spot.Aside C' :=
  h.same.mono fun _ hs => hs.ofWords.aside

theorem node (h : Discounted C C' ts) (a : List ℕ) (part : NodePart) :
    C'.place (.node a part) = C.place (.node a part) ∧
    C'.data (.node a part) = C.data (.node a part) := h.same _ not_false

theorem holds {J : JSONDatabase} {D : NodeTree} (h : Discounted C C' ts) (hold : Holds J D C) :
    Holds J D C' :=
  hold.of_sameBut h.aside

theorem index (h : Discounted C C' ts) : C'.index = C.index := h.aside.index

end Discounted

end Content

open Content in
/-- `operator --` counts one down. -/
theorem Path.meets_preDecrement {F : File} {s : Spot} {p : Path}
    (hp : F.content.place s = some p.index) :
    Meets (fun _ => p.preDecrement) F fun n F' => n = F.content.tally s - 1 ∧
      F'.content = F.content.put s (some (toData (F.content.tally s - 1))) := by
  have hcount : Meets (fun _ => do
      if ← p.hasDataNow then
        let count ← p.getDataAs ℕ
        return if count > 0 then count - 1 else count
      else return 0) F fun n F' =>
      F' = F ∧ n = F.content.tally s - 1 := by
    refine Meets.bind (meets_hasData hp) ?_
    rintro b F' - ⟨rfl, rfl⟩
    unfold tally
    cases hdata : F'.content.data s with
    | none => exact Meets.ret ⟨rfl, rfl⟩
    | some d =>
      refine Meets.bind (meets_getData hp) ?_
      rintro n F₁ - ⟨rfl, rfl⟩
      refine Meets.ret ⟨rfl, ?_⟩
      rw [hdata]
      exact Path.ite_pred _
  refine Meets.bind hcount ?_
  rintro n F' - ⟨rfl, rfl⟩
  refine Meets.bind (meets_setData hp _) ?_
  rintro _ F₁ - h₁
  exact Meets.ret ⟨rfl, h₁⟩

/-- A branch that is dropped is dead. -/
theorem File.dead_of_dropped {F F' : File} {s : Spot} {i : ℕ} (he : View.Evolves F F')
    (hs : F.content.place s = some i)
    (hnone : F'.content.place s = none) : F'.Dead i := by
  obtain ⟨n, hn, rfl⟩ := exists_node hs
  rcases he.2.old hn with ⟨m, hm, -⟩ | ⟨hgone, hbranch⟩
  · have hm' : F'.node s = some m := hm
    rw [node_eq_none.mpr hnone] at hm'
    cases hm'
  · exact ⟨_, hbranch, hgone⟩

/-- The path is on the word, or on what is left of it. -/
def File.OnWord (F : File) (word : BString) (q : Path) : Prop :=
  F.content.place (.word word) = some q.index ∨ F.content.place (.word word) = none ∧ F.Dead q.index

namespace Content

variable {C C' : Content} {w : BString} {k : Key}

theorem count_one (w' : BString) (k' : Key) : [(w, k)].count (w', k') = if w' = w ∧ k' = k then 1
    else 0 := by
  rw [List.count_singleton]
  by_cases h : w' = w ∧ k' = k
  · obtain ⟨rfl, rfl⟩ := h
    simp
  · rw [if_neg h, if_neg]
    intro he
    obtain ⟨rfl, rfl⟩ := Prod.mk.inj (beq_iff_eq.mp he)
    exact h ⟨rfl, rfl⟩

/-- One is counted down, and the id stays. -/
theorem Discounted.of_put (h : C.Tallied) (hn : 1 < C.tally (.wordId w k)) :
    Discounted C (C.put (.wordId w k) (some (toData (C.tally (.wordId w k) - 1)))) [(w, k)] where
  same := .put trivial _
  tallied := by
    refine ⟨fun w' k' => ?_, h.word⟩
    rw [tally_put, put_place, h.place]
    split_ifs with he
    · cases he
      omega
    · rfl
  tally w' k' := by
    rw [tally_put, count_one]
    simp only [Spot.wordId.injEq]
    split_ifs with he
    · obtain ⟨rfl, rfl⟩ := he
      rfl
    · rfl

/-- The last one is counted down, and the id goes; so does the word if it has
no other one. -/
theorem Discounted.of_dropped (h : C.Tallied) (hn : C.tally (.wordId w k) = 1)
    (hs : C.SameBut Spot.OfCounters C')
    (hid : C'.place (.wordId w k) = none ∧ C'.data (.wordId w k) = none)
    (hother : ∀ w' k', ¬ (w' = w ∧ k' = k) →
      C'.place (.wordId w' k') = C.place (.wordId w' k') ∧ C'.data (.wordId w' k') = C.data
        (.wordId w' k'))
    (hword : ∀ w', w' ≠ w → C'.place (.word w') = C.place (.word w'))
    (hlast : (C'.place (.word w)).isSome ↔ ∃ k', (C'.place (.wordId w k')).isSome) :
    Discounted C C' [(w, k)] := by
  have htally : ∀ w' k', C'.tally (.wordId w' k') = if w' = w ∧ k' = k then 0
    else C.tally (.wordId w' k') := by
    intro w' k'
    split_ifs with he
    · obtain ⟨rfl, rfl⟩ := he
      rw [Content.tally, hid.2]
      rfl
    · rw [Content.tally, (hother w' k' he).2]
      rfl
  refine ⟨hs, ⟨fun w' k' => ?_, fun w' => ?_⟩, fun w' k' => ?_⟩
  · rw [htally]
    split_ifs with he
    · obtain ⟨rfl, rfl⟩ := he
      simp [hid.1]
    · rw [(hother w' k' he).1]
      exact h.place w' k'
  · by_cases hw : w' = w
    · exact hw ▸ hlast
    · rw [hword w' hw, h.word]
      refine exists_congr fun k' => ?_
      rw [(hother w' k' fun he => hw he.1).1]
  · rw [htally, count_one]
    split_ifs with he
    · obtain ⟨rfl, rfl⟩ := he
      rw [hn]
    · rfl

end Content

/-- The pairs of two lists, whichever comes first. -/
theorem pairs_perm (words : List BString) (ids : List Key) :
    (words.flatMap fun word => ids.map (word, ·)).Perm
    (ids.flatMap fun id => words.map (·, id)) := by
  have hcomm := Multiset.bind_map_comm (words : Multiset BString) (ids : Multiset Key)
    (f := fun word id => (word, id))
  simp only [Multiset.map_coe, Multiset.coe_bind] at hcomm
  exact Multiset.coe_eq_coe.mp hcomm

namespace JSON

variable {J : JSONDatabase} {L : Locale} {D : NodeTree}

theorem meets_removeId (word : BString) {a : List ℕ} {F : File} {p q : Path}
    (h : Holds J D F.content) (ht : F.content.Tallied)
    (hp : F.content.place (.node a .self) = some p.index) (hq : F.OnWord word q) :
    Meets (fun _ => removeId J L word q p) F fun _ F' =>
      F.content.Discounted F'.content [(word, D.id L F.content.index a)] ∧ F'.OnWord word q := by
  refine Meets.bind (meets_id h hp) ?_
  rintro key F' - ⟨rfl, rfl⟩
  have hnothing : F'.content.place (.wordId word (D.id L F'.content.index a)) = none →
      F'.content.Discounted F'.content [(word, D.id L F'.content.index a)] := by
    intro hnone
    apply Content.Discounted.of_zero ht
    intro t hmem
    obtain rfl := List.mem_singleton.mp hmem
    have hzero := (ht.place word (D.id L F'.content.index a)).not.mp (by simp [hnone])
    exact Nat.eq_zero_of_not_pos hzero
  rcases hq with hq | ⟨hnone, hdead⟩
  · refine Meets.bind (Path.meets_contains (t := .wordId word _) (s := .word word) rfl hq) ?_
    rintro _ F'' - ⟨rfl, rfl⟩
    cases hplace : F''.content.place (.wordId word (D.id L F''.content.index a)) with
    | none => exact Meets.ret ⟨hnothing hplace, Or.inl hq⟩
    | some j =>
      simp only [Option.isSome_some, if_true]
      have hpos := (ht.place word (D.id L F''.content.index a)).mp (by rw [hplace]; rfl)
      refine Meets.bind (meets_id h hp) ?_
      rintro key F' - ⟨rfl, hkey⟩
      rw [← hkey] at hplace hpos hnothing ⊢
      refine Meets.bind (Path.meets_walk_of_some (t := .wordId word key) (s := .word word)
        rfl hq hplace) ?_
      rintro r F₀ - ⟨rfl, rfl⟩
      refine Meets.bind (Path.meets_preDecrement hplace) ?_
      rintro _ F₁ - ⟨rfl, h₁⟩
      have hsame₁ : F₀.content.SameBut Spot.OfCounters F₁.content := by
        rw [h₁]
        exact .put trivial _
      have hq₁ : F₁.content.place (.word word) = some q.index := by rw [h₁]; exact hq
      by_cases hone : F₀.content.tally (.wordId word key) = 1
      · have hold₁ := h.of_sameBut (hsame₁.mono fun _ hs => hs.ofWords.aside)
        simp only [hone, Nat.sub_self, if_true]
        have hp₁ : F₁.content.place (.node a .self) = some p.index := by rw [h₁]; exact hp
        refine Meets.bind (meets_id hold₁ hp₁) ?_
        rintro key' F' - ⟨rfl, hkey'⟩
        obtain rfl : key' = key := by
          rw [hkey', hkey, (hsame₁.mono fun _ hs => hs.ofWords.aside).index]
        refine Meets.bind (Path.meets_clearKey (t := .wordId word key') (s := .word word) rfl hq₁)
          ?_
        rintro _ F₂ - h₂
        have hq₂ : F₂.content.place (.word word) = some q.index := by
          rw [h₂, Content.drop_place_of_not (by simp), hq₁]
        have hsame₂ : F'.content.SameBut Spot.OfCounters F₂.content := by
          rw [h₂]
          exact .drop fun t hu => by rw [Spot.wordId_under.mp hu]; trivial
        refine Meets.bind (Path.meets_isDeadEnd hq₂) ?_
        rintro b F'' - ⟨rfl, hdead⟩
        have hsame := hsame₁.trans hsame₂
        have hid : F''.content.place (.wordId word key') = none ∧
          F''.content.data (.wordId word key') = none := by
          rw [h₂]
          exact ⟨Content.drop_place_of (Spot.under_refl _), Content.drop_data_of
            (Spot.under_refl _)⟩
        have hother : ∀ w' k', ¬ (w' = word ∧ k' = key') →
            F''.content.place (.wordId w' k') = F₀.content.place (.wordId w' k') ∧
              F''.content.data (.wordId w' k') = F₀.content.data (.wordId w' k') := by
          intro w' k' hne
          have hnot : ¬ (Spot.wordId word key').Under (.wordId w' k') := by
            rw [Spot.wordId_under, Spot.wordId.injEq]
            exact hne
          rw [h₂, Content.drop_place_of_not hnot, Content.drop_data_of_not hnot, h₁]
          exact ⟨rfl, Content.put_data_of_ne (by rwa [ne_eq, Spot.wordId.injEq]) _⟩
        have hword : ∀ w', F''.content.place (.word w') = F₀.content.place (.word w') := by
          intro w'
          rw [h₂, Content.drop_place_of_not (by simp), h₁]
          rfl
        cases b with
        | false =>
          refine Meets.ret ⟨.of_dropped ht hone hsame hid hother (fun w' _ => hword w') ?_,
            Or.inl hq₂⟩
          rw [hq₂]
          simp only [Bool.false_eq_true, false_iff, not_forall] at hdead
          obtain ⟨t, hunder, hne, hsome⟩ := hdead
          obtain ⟨k, rfl⟩ := (Spot.word_under.mp hunder).resolve_left hne
          exact iff_of_true rfl ⟨k, Option.isSome_iff_ne_none.mpr hsome⟩
        | true =>
          have hnone := hdead.mp rfl
          refine (Path.meets_clearKey (t := .word word) (s := .words) rfl ?_).mono ?_
          · rw [hsame.place (by simp)]
            exact h.words
          rintro _ F₃ he h₃
          have hgone : F₃.content.place (.word word) = none := by
            rw [h₃, Content.drop_place_of (Spot.under_refl _)]
          have hids : ∀ k, F₃.content.place (.wordId word k) = none ∧
            F₃.content.data (.wordId word k) = none := by
            intro k
            have hunder : (Spot.word word).Under (.wordId word k) :=
              Spot.word_under.mpr (Or.inr ⟨k, rfl⟩)
            rw [h₃]
            exact ⟨Content.drop_place_of hunder, Content.drop_data_of hunder⟩
          refine ⟨.of_dropped ht hone ?_ (hids _) (fun w' k' hne => ?_) (fun w' hw => ?_) ?_,
            Or.inr ⟨hgone, File.dead_of_dropped he hq₂ hgone⟩⟩
          · refine hsame.trans ?_
            rw [h₃]
            refine .drop fun t hu => ?_
            rcases Spot.word_under.mp hu with rfl | ⟨k, rfl⟩ <;> trivial
          · rw [← (hother w' k' hne).1, ← (hother w' k' hne).2]
            by_cases hw : w' = word
            · subst hw
              have hplace :=
                hnone (.wordId w' k') (Spot.word_under.mpr (Or.inr ⟨k', rfl⟩)) (by simp)
              rw [(hids k').1, (hids k').2, hplace, F''.sound.data hplace]
              exact ⟨rfl, rfl⟩
            · have hnot : ¬ (Spot.word word).Under (.wordId w' k') := by
                rw [Spot.word_under]
                simp [hw]
              rw [h₃, Content.drop_place_of_not hnot, Content.drop_data_of_not hnot]
              exact ⟨rfl, rfl⟩
          · rw [h₃, Content.drop_place_of_not (by simpa [eq_comm] using hw), hword]
          · simp [hgone, hids]
      · rw [if_neg (by omega)]
        refine Meets.ret ⟨?_, Or.inl hq₁⟩
        rw [h₁]
        exact .of_put ht (by omega)
  · refine Meets.bind (Path.meets_contains_dead hdead _) ?_
    rintro _ F'' - ⟨rfl, rfl⟩
    refine Meets.ret ⟨hnothing (F''.sound.closed (s := .word word) ?_ hnone), Or.inr ⟨hnone, hdead⟩⟩
    simp

/-- The loop of `removeWords` for one word. -/
theorem meets_removeToken (word : BString) {q : Path} :
    ∀ {a : List ℕ} {F : File} {p : Path} {n : ℕ}, Holds J D F.content →
    F.content.Tallied → F.content.place (.node a .self) = some p.index → F.OnWord word q →
      a.length < n →
      Meets (fun _ => removeToken J L word q n p) F fun _ F' =>
        F.content.Discounted F'.content ((D.chain L F.content.index a).map (word, ·)) := by
  intro a
  induction a with
  | nil =>
    intro F p n h ht hp hq hn
    obtain ⟨n, rfl⟩ : ∃ k, n = k + 1 := ⟨n - 1, by omega⟩
    simp only [removeToken]
    rw [if_pos ((h.isRoot_iff hp).mpr rfl)]
    exact Meets.ret (.nil ht)
  | cons i a ih =>
    intro F p n h ht hp hq hn
    obtain ⟨n, rfl⟩ : ∃ k, n = k + 1 := ⟨n - 1, by omega⟩
    simp only [removeToken]
    rw [if_neg fun hroot => by cases (h.isRoot_iff hp).mp hroot]
    refine Meets.bind (meets_parent h hp) ?_
    rintro up F' - ⟨rfl, hup⟩
    cases a with
    | nil =>
      rw [if_pos ((h.isRoot_iff hup).mpr rfl)]
      exact Meets.ret (.nil ht)
    | cons j a =>
      rw [if_neg fun hroot => by cases (h.isRoot_iff hup).mp hroot]
      refine Meets.bind (meets_removeId word h ht hp hq) ?_
      rintro _ F₁ - ⟨h₁, hq₁⟩
      have hold := h₁.holds h
      refine Meets.bind (meets_parent hold (by rw [(h₁.node _ _).1]; exact hp)) ?_
      rintro up' F'' - ⟨rfl, hup'⟩
      refine (ih hold h₁.tallied hup' hq₁ (by simpa using hn)).mono ?_
      rintro _ F₂ - h₂
      rw [h₁.index] at h₂
      exact h₁.append h₂

theorem meets_removeTokens {a : List ℕ} {p : Path} : ∀ (tokens : List BString) {F : File},
    Holds J D F.content →
    F.content.Tallied → F.content.place (.node a .self) = some p.index →
      Meets (fun _ => tokens.forM fun word => do
        if ← J.words.containsNow (.of word) then
          let wordPath ← J.words.walk (.of word)
          upwards (removeToken J L word wordPath · p)) F fun _ F' =>
            F.content.Discounted F'.content (tokens.flatMap fun word =>
              (D.chain L F.content.index a).map (word, ·))
  | [], F, _, ht, _ => Meets.ret (.nil ht)
  | word :: tokens, F, h, ht, hp => by
    simp only [List.forM_eq_forM, List.forM_cons]
    have hfirst : Meets (fun _ => do
        if ← J.words.containsNow (.of word) then
          let wordPath ← J.words.walk (.of word)
          upwards (removeToken J L word wordPath · p)) F fun _ F' =>
            F.content.Discounted F'.content ((D.chain L F.content.index a).map (word, ·)) := by
      refine Meets.bind (Path.meets_contains (t := .word word) rfl h.words) ?_
      rintro _ F' - ⟨rfl, rfl⟩
      cases hx : F'.content.place (.word word) with
      | none =>
        refine Meets.ret (.of_zero ht fun t hmem => ?_)
        obtain ⟨key, -, rfl⟩ := List.mem_map.mp hmem
        have hid : F'.content.place (.wordId word key) = none :=
          F'.sound.closed (s := .word word) (by simp) hx
        have hzero := (ht.place word key).not.mp (by simp [hid])
        exact Nat.eq_zero_of_not_pos hzero
      | some x =>
        refine Meets.bind (Path.meets_walk_of_some (t := .word word) rfl h.words hx) ?_
        rintro q F'' - ⟨rfl, rfl⟩
        exact meets_upwards (meets_removeToken word h ht hp (Or.inl hx) (File.length_lt_depth hp))
    refine Meets.bind hfirst ?_
    rintro _ F₁ - h₁
    refine (meets_removeTokens tokens (h₁.holds h) h₁.tallied
      (by rw [(h₁.node _ _).1]; exact hp)).mono ?_
    rintro _ F₂ - h₂
    rw [h₁.index] at h₂
    exact h₁.append h₂

theorem meets_removeWords (name : BString) {a : List ℕ} {F : File} {p : Path}
    (h : Holds J D F.content) (ht : F.content.Tallied)
    (hp : F.content.place (.node a .self) = some p.index) :
    Meets (fun _ => removeWords J L p name [] true true) F fun _ F' =>
      F.content.Discounted F'.content ((D.chain L F.content.index a).flatMap fun key =>
        (keyWords L name).map (·, key)) := by
  refine Meets.bind (meets_removeTokens (keyWords L name) h ht hp) ?_
  rintro _ F' - h'
  exact Meets.ret (h'.congr (pairs_perm _ _).count_eq)

/-- The words of the keys on the way from a node are counted down for another
one, in practice for the node itself. -/
theorem meets_removeProperties {a : List ℕ} {p : Path} :
    ∀ {b : List ℕ} {F : File} {q : Path} {n : ℕ}, Holds J D F.content →
    F.content.Tallied → F.content.place (.node a .self) = some p.index →
      F.content.place (.node b .self) = some q.index → b.length < n →
      Meets (fun _ => removeProperties J L p n q) F fun _ F' => F.content.Discounted F'.content
        ((D.names b).flatMap fun name => (D.chain L F.content.index a).flatMap fun key =>
          (keyWords L name).map (·, key)) := by
  intro b
  induction b with
  | nil =>
    intro F q n h ht hp hq hn
    obtain ⟨n, rfl⟩ : ∃ k, n = k + 1 := ⟨n - 1, by omega⟩
    simp only [removeProperties]
    refine Meets.bind (meets_isUserRoot h hq) ?_
    rintro _ F' - ⟨rfl, rfl⟩
    exact Meets.ret (.nil ht)
  | cons i b ih =>
    intro F q n h ht hp hq hn
    obtain ⟨n, rfl⟩ : ∃ k, n = k + 1 := ⟨n - 1, by omega⟩
    simp only [removeProperties]
    refine Meets.bind (meets_isUserRoot h hq) ?_
    rintro _ F' - ⟨rfl, rfl⟩
    rcases b with - | ⟨j, - | ⟨k, b⟩⟩
    · exact Meets.ret (.nil ht)
    · exact Meets.ret (.nil ht)
    rw [if_neg (by simp)]
    obtain ⟨c, hc⟩ := Option.isSome_iff_exists.mp (h.live_of_place hq).2
    refine Meets.bind (meets_parentKey h hq hc) ?_
    rintro ⟨key, up⟩ F'' - ⟨rfl, rfl, hup⟩
    simp only [NodeTree.names, hc]
    cases key with
    | integer m => exact ih h ht hp hup (by simpa using hn)
    | string name =>
      refine Meets.bind (meets_removeWords name h ht hp) ?_
      rintro _ F₁ - h₁
      refine (ih (h₁.holds h) h₁.tallied (by rw [(h₁.node _ _).1]; exact hp)
        (by rw [(h₁.node _ _).1]; exact hup)
        (by simpa using hn)).mono ?_
      rintro _ F₂ - h₂
      rw [h₁.index] at h₂
      exact h₁.append h₂

end JSON

/-! ### The other nodes -/

namespace Words

variable {L : Locale} {D : NodeTree} {C C' : Content} {nodes : List (List ℕ)} {a : List ℕ}

theorem tallied (h : Words L D C nodes) : C.Tallied where
  place w k := by rw [h.place, h.tally, List.count_pos_iff]
  word w := by
    rw [h.word]
    exact exists_congr fun k => (h.place w k).symm

/-- Without the entries of a node, the words are those of the others. -/
theorem discounted (h : Words L D C nodes) (ha : a ∈ nodes)
    (hd : C.Discounted C' (D.entries L C.index a)) :
    Words L D C' (nodes.erase a) := by
  have hcount : ∀ t,
      (nodes.flatMap (D.entries L C.index)).count t =
        (D.entries L C.index a).count t +
          ((nodes.erase a).flatMap (D.entries L C.index)).count t := by
    intro t
    rw [((List.perm_cons_erase ha).flatMap_right _).count_eq, List.flatMap_cons, List.count_append]
  have htally : ∀ w k, C'.tally (.wordId w k) =
    ((nodes.erase a).flatMap (D.entries L C'.index)).count (w, k) := by
    intro w k
    rw [hd.tally, h.tally, hcount, hd.index, Nat.add_sub_cancel_left]
  have hplace : ∀ w k, (C'.place (.wordId w k)).isSome ↔ (w, k) ∈ (nodes.erase a).flatMap
    (D.entries L C'.index) := by
    intro w k
    rw [hd.tallied.place, htally, List.count_pos_iff]
  exact ⟨h.nodup.erase a, fun b hb => h.live b (List.mem_of_mem_erase hb), htally, hplace,
    fun w => (hd.tallied.word w).trans (exists_congr fun k => hplace w k)⟩

end Words

namespace JSONDatabase

variable (L : Locale) {xs : List Access}

/-- After any run, what `deleteProperty` begins with takes from the words what
the node has there, and leaves them exact for all other nodes. -/
theorem run_unindexes (h : Access.Consistent xs) :
    ∃ (D : NodeTree) (J : JSONDatabase) (paths : List Path) (F : File),
      NodeTree.empty.accessAll xs = some D ∧
      Returns (fun fuel => (run L xs fuel).run .create) ((J, paths), F.db) ∧
        paths.length = xs.length ∧
        ∀ {x p}, (x, p) ∈ xs.zip paths → ∃ (a : List ℕ) (F' : File) (nodes : List (List ℕ)),
          D.way a = x.names.reverse.map .string ∧
            (upwards (JSON.removeProperties J L p · p)).run F.db = some ((), F'.db) ∧
            Holds J D F'.content ∧ Words L D F'.content nodes ∧ ∀ b, b ∈ nodes ↔ D.Live b ∧
              b ≠ a := by
  obtain ⟨D, J, paths, F, hD, hrun, ⟨nodes, hnodes, hall⟩, hpaths⟩ := run_stands L h
  refine ⟨D, J, paths, F, hD, hrun, hpaths.length_eq.symm, fun {x p} hx => ?_⟩
  obtain ⟨a, ha, hway⟩ := (List.forall₂_iff_zip.mp hpaths).2 hx
  have hremove := meets_upwards (f := fun n => JSON.removeProperties J L p n p)
    (JSON.meets_removeProperties hnodes.toHolds hnodes.counts.tallied ha ha
      (File.length_lt_depth ha))
  obtain ⟨_, F', hrun', hdiscounted⟩ := hremove.exists_run
  have hmem : a ∈ nodes := hall a (hnodes.live_of_place ha)
  refine ⟨a, F', nodes.erase a, hway, hrun', hdiscounted.holds hnodes.toHolds,
    hnodes.counts.discounted hmem hdiscounted, fun b => ?_⟩
  rw [hnodes.counts.nodup.mem_erase_iff, and_comm]
  exact and_congr_left fun _ => ⟨hnodes.counts.live b, hall b⟩

theorem run_unindexes_one : ∃ (J : JSONDatabase) (p : Path) (F F' : File),
    Returns (fun fuel => (run .c [⟨[text "a", text "b", text "c"], none⟩] fuel).run .create)
      ((J, [p]), F.db) ∧
      (upwards (JSON.removeProperties J .c p · p)).run F.db = some ((), F'.db) := by
  obtain ⟨D, J, paths, F, -, hrun, hlength, hnodes⟩ := run_unindexes .c
    (Access.consistent_of_none [⟨[text "a", text "b", text "c"], none⟩] (by simp)
      (by decide +kernel))
  obtain ⟨p, rfl⟩ := List.length_eq_one_iff.mp hlength
  obtain ⟨a, F', nodes, -, hremove, -⟩ := hnodes (.head _)
  exact ⟨J, p, F, F', hrun, hremove⟩

end JSONDatabase

end BeeFish
