/-
# Walking and clearing

What the operations of a path do to the layout of the file. Walking along the
bits of a key grows the layout by the branches that were not there
(`Rep.writeBits`); `contains` tells whether the way is there (`Rep.contains`);
`clear()` takes the data of a node and both its subtrees, and `clear(key)`
prunes the layout at the bit after the last fork on the way of the key
(`Rep.clearKey`).

Key definitions: `Layout.Grown`, `Layout.Cut`.
-/
import BeeFish.Trie

namespace BeeFish

open BitCode

/-- The bits of the keys of a path. -/
def bitsOf (keys : List Key) : List Bool := (keys.map Key.bits).flatten

namespace Layout

variable {L L' L'' : Layout} {u w : List Bool}

/-- `L'` is `L` with the branches on the way to `w` that it did not have, and
no data in them. -/
structure Grown (L L' : Layout) (w : List Bool) : Prop where
  old : ∀ {u n}, L u = some n → L' u = some n
  new : ∀ {u n}, L u = none → L' u = some n → n.data = none ∧ u <+: w
  present : ∃ n, L' w = some n

theorem Grown.refl {n : Node} (hw : L w = some n) : Grown L L w where
  old h := h
  new h h' := by rw [h] at h'; cases h'
  present := ⟨n, hw⟩

theorem Grown.trans (h : Grown L L' u) (h' : Grown L' L'' w) (hp : u <+: w) : Grown L L'' w where
  old hn := h'.old (h.old hn)
  new {x n} hn hn' := by
    cases hx : L' x with
    | none => exact h'.new hx hn'
    | some m =>
      rw [h'.old hx] at hn'
      obtain rfl := Option.some.inj hn'
      obtain ⟨hd, hxu⟩ := h.new hn hx
      exact ⟨hd, hxu.trans hp⟩
  present := h'.present

theorem grown_put {c : Bool} {m : Node}
    (h : L (w ++ [c]) = some m ∨ L (w ++ [c]) = none ∧ m.data = none) :
    Grown L (L.put (w ++ [c]) m) (w ++ [c]) where
  old {u n} hn := by
    rcases h with h | ⟨h, -⟩
    · rwa [put_self h]
    · rwa [put_of_ne]
      rintro rfl
      rw [h] at hn
      cases hn
  new {u n} hn hn' := by
    rcases put_eq_some hn' with ⟨rfl, rfl⟩ | ⟨-, hn'⟩
    · rcases h with h | ⟨-, hd⟩
      · rw [h] at hn
        cases hn
      · exact ⟨hd, List.prefix_rfl⟩
    · rw [hn] at hn'
      cases hn'
  present := ⟨m, put_same ..⟩

/-- Where `clear(key)` cuts: after the last branch with two children on the
way `v` from `w`, or after `w` itself. -/
structure Cut (L : Layout) (w v x : List Bool) (b : Bool) (r : List Bool) : Prop where
  eq : v = x ++ b :: r
  fork : x = [] ∨ ∀ c, (L (w ++ x ++ [c])).isSome
  single : ∀ y c s, r = y ++ c :: s → L (w ++ x ++ [b] ++ y ++ [!c]) = none

theorem Cut.cons {v x r : List Bool} {b c : Bool} (h : L.Cut (w ++ [c]) v x b r)
    (hf : ∀ a, (L (w ++ c :: x ++ [a])).isSome) : L.Cut w (c :: v) (c :: x) b r where
  eq := by rw [List.cons_append, ← h.eq]
  fork := Or.inr hf
  single y d s hr := by simpa using h.single y d s hr

end Layout

namespace Rep

variable {db : Database} {Γ : Heap} {L : Layout} {w : List Bool} {n : Node}

/-! ### Walking -/

theorem writeBit (h : Rep db Γ L) (hw : L w = some n) (k : ℤ) (c : Bool) :
    ∃ Γ' L' m, m.place = (Path.writeBit db ⟨n.place, k⟩ c).1.index ∧
      Rep (Path.writeBit db ⟨n.place, k⟩ c).2 Γ' L' ∧ L' (w ++ [c]) = some m ∧
        L.Grown L' (w ++ [c]) ∧
      db.size ≤ (Path.writeBit db ⟨n.place, k⟩ c).2.size ∧ Evolves db.size Γ L Γ' L' := by
  obtain ⟨Γ', m, hm, h', hc, hs, he⟩ := h.child hw c
  refine ⟨Γ', _, m, ?_, ?_, Layout.put_same .., Layout.grown_put hc, ?_, he⟩
  · cases c <;> exact hm
  · cases c <;> exact h'
  · cases c <;> exact hs

/-- Walking along `v` makes the branches that are missing. -/
theorem writeBits :
    ∀ {v : List Bool} {db : Database} {Γ : Heap} {L : Layout} {w : List Bool} {n : Node} {p : Path},
    Rep db Γ L → L w = some n → p.index = n.place →
    ∃ Γ' L' m, m.place = (Path.writeBits db p v).1.index ∧ Rep (Path.writeBits db p v).2 Γ' L' ∧
      L' (w ++ v) = some m ∧ L.Grown L' (w ++ v) ∧ db.size ≤ (Path.writeBits db p v).2.size ∧
        Evolves db.size Γ L Γ' L'
  | [], db, Γ, L, w, n, p, h, hw, hp => by
    refine ⟨Γ, L, n, hp.symm, h, by simpa using hw, ?_, le_rfl, .refl⟩
    rw [List.append_nil]
    exact .refl hw
  | c :: v, db, Γ, L, w, n, ⟨_, k⟩, h, hw, rfl => by
    obtain ⟨Γ₁, L₁, m, hm, h₁, hw₁, hg₁, hs₁, he₁⟩ := h.writeBit hw k c
    obtain ⟨Γ', L', m', hm', h', hw', hg', hs', he'⟩ := writeBits (v := v) h₁ hw₁ hm.symm
    rw [List.append_assoc, List.singleton_append] at hw' hg'
    exact ⟨Γ', L', m', hm', h', hw', hg₁.trans hg' ⟨v, by simp⟩, hs₁.trans hs',
      he₁.trans h.toWF h₁.toWF h.place_lt hs₁ he'⟩

theorem get (h : Rep db Γ L) (hw : L w = some n) {p : Path} (hp : p.index = n.place) (key : Key) :
    ∃ Γ' L' m, m.place = (Path.get db p key).1.index ∧ Rep (Path.get db p key).2 Γ' L' ∧
      L' (w ++ key.bits) = some m ∧ L.Grown L' (w ++ key.bits) ∧
        db.size ≤ (Path.get db p key).2.size ∧
      Evolves db.size Γ L Γ' L' := writeBits h hw hp

theorem getAll :
    ∀ (keys : List Key) {db : Database} {Γ : Heap} {L : Layout} {w : List Bool} {n : Node}
      {p : Path},
    Rep db Γ L → L w = some n → p.index = n.place →
    ∃ Γ' L' m, m.place = (Path.getAll db p keys).1.index ∧ Rep (Path.getAll db p keys).2 Γ' L' ∧
      L' (w ++ bitsOf keys) = some m ∧ L.Grown L' (w ++ bitsOf keys)
  | [], db, Γ, L, w, n, p, h, hw, hp => by
    have hb : w ++ bitsOf [] = w := List.append_nil w
    rw [hb]
    exact ⟨Γ, L, n, hp.symm, h, hw, .refl hw⟩
  | key :: keys, db, Γ, L, w, n, p, h, hw, hp => by
    have hb : w ++ bitsOf (key :: keys) = w ++ key.bits ++ bitsOf keys := by simp [bitsOf]
    obtain ⟨Γ₁, L₁, m, hm, h₁, hw₁, hg₁, -, -⟩ := h.get hw hp key
    obtain ⟨Γ', L', m', hm', h', hw', hg'⟩ := getAll keys h₁ hw₁ hm.symm
    rw [hb]
    exact ⟨Γ', L', m', hm', h', hw', hg₁.trans hg' (List.prefix_append _ _)⟩

/-! ### Contains -/

theorem contains_writeBit (h : Rep db Γ L) (hw : L w = some n) (c : Bool) :
    Path.Contains.writeBit db ⟨n.place, true⟩ c =
      match L (w ++ [c]) with
      | some m => ⟨m.place, true⟩
      | none => ⟨0, false⟩ := by
  have hchild : (L.branch w n).child c = L.place (w ++ [c]) := Layout.branch_child ..
  simp only [Path.Contains.writeBit, h.getBranch hw, if_true]
  cases hc : L (w ++ [c]) with
  | some m =>
    rw [Layout.place_of hc] at hchild
    have h0 := (h.place_pos (by simp) hc).ne'
    cases c <;> simp_all [Branch.child]
  | none =>
    rw [Layout.place_of_none hc] at hchild
    cases c <;> simp_all [Branch.child]

theorem contains_fold_false : ∀ (v : List Bool) (i : ℕ),
    (v.foldl (Path.Contains.writeBit db) ⟨i, false⟩).contains = false
  | [], _ => rfl
  | _ :: v, i => contains_fold_false v i

theorem contains_fold (h : Rep db Γ L) : ∀ {v w : List Bool} {n : Node}, L w = some n →
    (v.foldl (Path.Contains.writeBit db) ⟨n.place, true⟩).contains = (L (w ++ v)).isSome
  | [], w, n, hw => by simp [hw]
  | c :: v, w, n, hw => by
    rw [List.foldl_cons, h.contains_writeBit hw c]
    cases hc : L (w ++ [c]) with
    | some m =>
      rw [contains_fold h (v := v) hc]
      simp
    | none =>
      rw [contains_fold_false]
      cases hv : L (w ++ c :: v) with
      | none => rfl
      | some m =>
        obtain ⟨k, hk⟩ := h.of_isPrefix hv (u := w ++ [c]) ⟨v, by simp⟩
        rw [hc] at hk
        cases hk

/-- `Path::contains` tells whether the way of the key is there. -/
theorem contains (h : Rep db Γ L) (hw : L w = some n) (k : ℤ) (key : Key) :
    Path.contains db ⟨n.place, k⟩ key = (L (w ++ key.bits)).isSome := by
  unfold Path.contains Path.Contains.new
  by_cases hd : (db.getBranch n.place).isDeadEnd = true
  · simp only [hd, Bool.not_true]
    rw [contains_fold_false]
    -- the key has a first bit, and a dead end has no child
    obtain ⟨v, hv⟩ := key.isCode.exists_cons
    rw [h.getBranch hw] at hd
    simp only [Branch.isDeadEnd, Bool.and_eq_true, beq_iff_eq] at hd
    have hr : L.place (w ++ [true]) = 0 := hd.2
    cases hm : L (w ++ key.bits) with
    | none => rfl
    | some m =>
      obtain ⟨j, hj⟩ := h.of_isPrefix hm (u := w ++ [true]) ⟨v, by simp [hv]⟩
      rw [Layout.place_of hj] at hr
      have := h.place_pos (by simp) hj
      omega
  · simp only [Bool.not_eq_true] at hd
    simp only [hd, Bool.not_false]
    exact h.contains_fold hw

/-! ### Clearing -/

/-- `Path::clear()` takes the data of the node and all below it. -/
theorem clear (h : Rep db Γ L) (hw : L w = some n) (k : ℤ) :
    ∃ db' Γ', Path.clear db ⟨n.place, k⟩ = some db' ∧
      Rep db' Γ' (Layout.prune (Layout.prune (L.put w ⟨n.place, none⟩) (w ++ [false]))
        (w ++ [true])) ∧
      db'.size = db.size ∧
      Evolves db.size Γ L Γ' (Layout.prune (Layout.prune (L.put w ⟨n.place, none⟩) (w ++ [false]))
        (w ++ [true])) := by
  obtain ⟨Γ₁, h₁, v₁⟩ := h.deleteData hw
  have hs := h.holds.size_deleteData (h.branch hw)
  have hw₁ : L.put w ⟨n.place, none⟩ w = some ⟨n.place, none⟩ := Layout.put_same ..
  obtain ⟨db₂, Γ₂, e₂, h₂, hs₂, v₂⟩ := h₁.deleteChild hw₁ false (Path.depth (db.deleteData n.place))
    (by simp only [Path.depth]; omega)
  have hw₂ : Layout.prune (L.put w ⟨n.place, none⟩) (w ++ [false]) w = some ⟨n.place, none⟩ :=
    Layout.prune_eq_some.mpr ⟨not_concat_isPrefix, hw₁⟩
  obtain ⟨db₃, Γ₃, e₃, h₃, hs₃, v₃⟩ := h₂.deleteChild hw₂ true (Path.depth db₂)
    (by simp only [Path.depth]; omega)
  have v₁₂ := v₁.trans h.toWF h₁.toWF h.place_lt hs.ge v₂
  have v₁₃ := v₁₂.trans h.toWF h₂.toWF h.place_lt (hs₂.trans hs).ge v₃
  refine ⟨db₃, Γ₃, ?_, h₃, hs₃.trans (hs₂.trans hs), v₁₃⟩
  have hl : (L.branch w n).left = Layout.place (L.put w ⟨n.place, none⟩) (w ++ [false]) :=
    (place_put_data hw (m := ⟨n.place, none⟩) rfl _).symm
  have hr : (L.branch w n).right =
      Layout.place (Layout.prune (L.put w ⟨n.place, none⟩) (w ++ [false])) (w ++ [true]) := by
    have hp : ¬ w ++ [false] <+: w ++ [true] := not_concat_prefix_concat
    rw [place_prune_of_not hp, place_put_data hw (m := ⟨n.place, none⟩) rfl]
    rfl
  have hd : (if (L.branch w n).dataIndex ≠ 0 then Path.deleteData db ⟨n.place, k⟩ else db) =
      db.deleteData n.place := by
    split_ifs with h0
    · rfl
    · simp only [Database.deleteData, h.getBranch hw, if_neg h0]
  simp only [Path.clear, h.getBranch hw]
  rw [hd, hl, e₂]
  simp only [Option.bind_eq_bind, Option.bind_some]
  rw [hr, e₃]

/-- The loop of `Path::clear(value)` meets no fork on the way, or stops at the
last one. -/
theorem lastFork (h : Rep db Γ L) : ∀ {v w : List Bool} {n m : Node} {i : ℕ} {b : Bool},
    L w = some n → L (w ++ v) = some m →
    (Path.lastFork db v n.place i b = (i, b) ∧ ∀ y c s, v = y ++ c :: s →
      L (w ++ y ++ [!c]) = none) ∨
    ∃ x r j, L.Cut w v x (Path.lastFork db v n.place i b).2 r ∧ (∀ a, (L (w ++ x ++ [a])).isSome) ∧
      L (w ++ x) = some j ∧ (Path.lastFork db v n.place i b).1 = j.place
  | [], w, n, m, i, b, _, _ => Or.inl ⟨rfl, fun y c s hv => by simp at hv⟩
  | c :: v, w, n, m, i, b, hw, hm => by
    obtain ⟨k, hk⟩ := h.of_isPrefix hm (u := w ++ [c]) ⟨v, by simp⟩
    have hm' : L (w ++ [c] ++ v) = some m := by simpa using hm
    have hstep : Path.lastFork db (c :: v) n.place i b =
        Path.lastFork db v k.place (if (L (w ++ [!c])).isSome then n.place else i)
          (if (L (w ++ [!c])).isSome then c else b) := by
      have hc : (L.branch w n).child c = k.place := by rw [Layout.branch_child, Layout.place_of hk]
      have hfork : (L.branch w n).left ≠ 0 ∧ (L.branch w n).right ≠ 0 ↔
        (L (w ++ [!c])).isSome = true := by
        rw [← h.place_ne_zero (by simp)]
        have h0 : L.place (w ++ [c]) ≠ 0 := (h.place_ne_zero (by simp)).mpr (by simp [hk])
        cases c
        · exact ⟨fun hb => hb.2, fun hr => ⟨h0, hr⟩⟩
        · exact ⟨fun hb => hb.1, fun hl => ⟨hl, h0⟩⟩
      simp only [Path.lastFork, h.getBranch hw, hc]
      by_cases hf : (L (w ++ [!c])).isSome = true
      · rw [if_pos (hfork.mpr hf), if_pos hf, if_pos hf]
      · rw [if_neg (hfork.not.mpr hf), if_neg hf, if_neg hf]
    rw [hstep]
    by_cases hc : (L (w ++ [!c])).isSome = true
    · simp only [if_pos hc]
      rcases lastFork h (i := n.place) (b := c) hk hm' with ⟨he, hs⟩ | ⟨x, r, j, hcut, hf, hj, he⟩
      · rw [he]
        have hfork : ∀ a, (L (w ++ [] ++ [a])).isSome := fun a => by
          rw [List.append_nil]
          by_cases ha : a = c
          · rw [ha, hk]
            rfl
          · rwa [Bool.eq_not.mpr ha]
        refine Or.inr ⟨[], v, n, ⟨rfl, Or.inl rfl, fun y d s hv => ?_⟩,
          hfork, by simpa using hw, rfl⟩
        simpa using hs y d s hv
      · have hf' : ∀ a, (L (w ++ c :: x ++ [a])).isSome := by simpa using hf
        exact Or.inr ⟨c :: x, r, j, hcut.cons hf', hf', by simpa using hj, he⟩
    · have hnone : L (w ++ [!c]) = none := by simpa using hc
      simp only [if_neg hc]
      rcases lastFork h (i := i) (b := b) hk hm' with ⟨he, hs⟩ | ⟨x, r, j, hcut, hf, hj, he⟩
      · refine Or.inl ⟨he, fun y d s hv => ?_⟩
        cases y with
        | nil =>
          obtain ⟨rfl, -⟩ := List.cons.inj hv
          simpa using hnone
        | cons a y =>
          obtain ⟨rfl, rfl⟩ := List.cons.inj hv
          simpa using hs y d s rfl
      · have hf' : ∀ a, (L (w ++ c :: x ++ [a])).isSome := by simpa using hf
        exact Or.inr ⟨c :: x, r, j, hcut.cons hf', hf', by simpa using hj, he⟩

/-- `Path::clear(value)` prunes the layout at the bit after the last fork on
the way of the key, or below the node. -/
theorem clearKey (h : Rep db Γ L) (hw : L w = some n) (k : ℤ) (key : Key)
    (hc : (L (w ++ key.bits)).isSome) :
    ∃ db' Γ' x b r, Path.clearKey db ⟨n.place, k⟩ key = some db' ∧ L.Cut w key.bits x b r ∧
      Rep db' Γ' (L.prune (w ++ x ++ [b])) ∧ db'.size = db.size ∧
        Evolves db.size Γ L Γ' (L.prune (w ++ x ++ [b])) := by
  obtain ⟨m, hm⟩ := Option.isSome_iff_exists.mp hc
  have hcut : ∃ x r j, L.Cut w key.bits x (Path.lastFork db key.bits n.place n.place true).2 r ∧
      L (w ++ x) = some j ∧ (Path.lastFork db key.bits n.place n.place true).1 = j.place := by
    rcases h.lastFork (i := n.place) (b := true) hw hm with ⟨he, hs⟩ | ⟨x, r, j, hcut, -, hj, he⟩
    · obtain ⟨v, hv⟩ := key.isCode.exists_cons
      rw [he]
      refine ⟨[], v, n, ⟨hv, Or.inl rfl, fun y c s hy => ?_⟩, by simpa using hw, rfl⟩
      have := hs (true :: y) c s (by rw [hv, hy]; rfl)
      simpa using this
    · exact ⟨x, r, j, hcut, hj, he⟩
  obtain ⟨x, r, j, hcut, hj, he⟩ := hcut
  set b := (Path.lastFork db key.bits n.place n.place true).2 with hb
  have hcon : Path.contains db ⟨n.place, k⟩ key = true := by rw [h.contains hw, hc]
  obtain ⟨db', Γ', e, h', hs, hv⟩ :=
    h.deleteChild hj b (Path.depth db) (by simp only [Path.depth]; omega)
  obtain ⟨i, hi⟩ := h.of_isPrefix hm (u := w ++ x ++ [b]) ⟨r, by rw [hcut.eq]; simp⟩
  refine ⟨db', Γ', x, b, r, ?_, hcut, h', hs, hv⟩
  have hstack : (key.bits.foldl Stack.writeBit Stack.empty).bits = key.bits := by
    simpa using Stack.foldl_writeBit_bits key.bits Stack.empty
  rw [if_pos ((h.place_ne_zero (by simp)).mpr (by rw [hi]; rfl))] at e
  simp only [Path.clearKey, hcon, if_true, hstack, he, h.getBranch hj, Layout.branch_child, ← hb, e]

theorem clearKey_of_none (h : Rep db Γ L) (hw : L w = some n) (k : ℤ) {key : Key}
    (hc : L (w ++ key.bits) = none) :
    Path.clearKey db ⟨n.place, k⟩ key = some db := by
  simp [Path.clearKey, h.contains hw, hc]

end Rep

end BeeFish
