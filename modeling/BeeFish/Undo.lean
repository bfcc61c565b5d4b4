/-
# Going up undoes going down

A cursor that goes left or right where it can, and then up, is what it was:
its paths are on the same branches with the same counts, its depths are the
same, and so are its stacks (`goUp_go`). A path comes back to its branch, and
its count with it, since the way to a branch takes no zero at the ground. An
or and a not move back just the operands they have moved, which they see from
their depths alone. A not has its stack beside its bounds, and both have one
count.

Key definitions: `Cursor.On`, `Reached`.
-/
import BeeFish.CursorExpr

namespace BeeFish

open BitCode

/-! ### Paths -/

/-- The path is on a branch, and its count is the height of the way there. -/
def Path.On (L : Layout) (p : Path) : Prop :=
  ∃ w n, L w = some n ∧ p.index = n.place ∧ p.count = height 0 w

section

variable {db : Database} {Γ : Heap} {L : Layout} {M : Store}

/-- The ways of the trie take no zero at the ground. -/
theorem Refines.grounded (hM : Refines L M) {w : List Bool} {n : Node} (hn : L w = some n) :
    Grounded w := by
  obtain ⟨ks, -, hks⟩ := hM.present hn
  refine Grounded.of_isPrefix (grounded_flatten ?_) hks
  simp only [List.mem_map]
  rintro _ ⟨k, -, rfl⟩
  exact k.isCode

/-- The branch that a path goes to and comes back from. -/
theorem Rep.goUp_child (h : Rep db Γ L) {w : List Bool} {n m : Node} {b : Bool} (hn : L w = some n)
    (hm : L (w ++ [b]) = some m) (count : ℤ) :
    Path.goUp db ⟨m.place, count⟩ = ⟨n.place, if b then count - 1 else count + 1⟩ := by
  have hparent : L.place (w ++ [b]).dropLast = n.place := by
    rw [List.dropLast_concat, Layout.place_of hn]
  have hleft : L.place (w ++ [false]) = m.place ↔ b = false := by
    constructor
    · intro he
      have hpos := h.place_pos (by simp) hm
      obtain ⟨k, hk⟩ := Option.isSome_iff_exists.mp ((h.place_ne_zero (by simp)).mp (he ▸ hpos.ne'))
      rw [Layout.place_of hk] at he
      simpa using (h.inj hk hm he).symm
    · rintro rfl
      exact Layout.place_of hm
  have hup : (db.getBranch m.place).parent = n.place := by
    rw [h.getBranch hm]
    exact hparent
  have hside : (db.getBranch n.place).left = m.place ↔ b = false := by
    rw [h.getBranch hn]
    exact hleft
  simp only [Path.goUp, hup, hside]
  cases b <;> rfl

/-- The branch that a path on one can go to. -/
theorem Path.On.exists_child (h : Rep db Γ L) {p : Path} (hp : p.On L) {b : Bool}
    (hb : PathBase.canGo db p b = true) :
    ∃ w n m, L w = some n ∧ L (w ++ [b]) = some m ∧ p = ⟨n.place, height 0 w⟩ := by
  obtain ⟨w, n, hn, hi, hcount⟩ := hp
  have hchild : PathBase.canGo db p b = ((db.getBranch p.index).child b != 0) := by cases b <;> rfl
  rw [hchild, hi, h.getBranch hn, Layout.branch_child, h.place_bne_zero] at hb
  obtain ⟨m, hm⟩ := Option.isSome_iff_exists.mp hb
  exact ⟨w, n, m, hn, hm, by rw [← hi, ← hcount]⟩

/-- A path that can go left has ones to go back over. -/
theorem Path.On.count_pos (h : Rep db Γ L) (hM : Refines L M) {p : Path} (hp : p.On L)
    (hb : PathBase.canGo db p false = true) : 0 < p.count := by
  obtain ⟨w, n, m, -, hm, rfl⟩ := hp.exists_child h hb
  exact Int.natCast_pos.mpr (hM.grounded hm w List.prefix_rfl)

theorem Path.On.undone (h : Rep db Γ L) (hM : Refines L M) {p : Path} (hp : p.On L) {b : Bool}
    (hb : PathBase.canGo db p b = true) :
    (PathBase.go db p b).2 = db ∧ (PathBase.go db p b).1.On L ∧ PathBase.goUp db
    (PathBase.go db p b).1 = p := by
  obtain ⟨w, n, m, hn, hm, rfl⟩ := hp.exists_child h hb
  have hchild := h.child_of_some hn hm
  cases b with
  | false =>
    have hpos : 0 < height 0 w := (hM.grounded hm) w List.prefix_rfl
    have hgo : PathBase.go db (⟨n.place, (height 0 w : ℤ)⟩ : Path) false =
      (⟨m.place, (height 0 w : ℤ) - 1⟩, db) := by
      show Path.goLeft db _ = _
      simp [Path.goLeft, hchild, hpos]
    rw [hgo]
    refine ⟨rfl, ⟨_, m, hm, rfl, ?_⟩, ?_⟩
    · simp only [height_append, height_false, height_nil]
      omega
    · show Path.goUp db _ = _
      rw [h.goUp_child hn hm]
      simp
  | true =>
    have hgo : PathBase.go db (⟨n.place, (height 0 w : ℤ)⟩ : Path) true =
      (⟨m.place, (height 0 w : ℤ) + 1⟩, db) := by
      show Path.goRight db _ = _
      simp [Path.goRight, hchild]
    rw [hgo]
    refine ⟨rfl, ⟨_, m, hm, rfl, by simp [height_append]⟩, ?_⟩
    show Path.goUp db _ = _
    rw [h.goUp_child hn hm]
    simp

/-! ### Cursors -/

/-- The paths of the cursor are on branches, and the stack of a not has the
count of its bounds. -/
def Cursor.On (L : Layout) : Cursor → Prop
  | .path p => p.On L
  | .andPath a b => a.On L ∧ b.On L
  | .orPath a b _ _ => a.On L ∧ b.On L
  | .notPath a bounds stack _ => a.On L ∧ bounds.On L ∧ bounds.count = stack.count
  | .wordPath _ _ (some p) => p.On L
  | .wordPath _ _ none => True

/-- A move that stays on the branches, leaves the file alone and is undone by
going up. -/
def Cursor.Undone (db : Database) (L : Layout) (c : Cursor) (b : Bool) : Prop :=
  (PathBase.go db c b).2 = db ∧ (PathBase.go db c b).1.On L ∧
    PathBase.goUp db (PathBase.go db c b).1 = c

namespace Cursor

variable {a c : Cursor} {p bounds : Path} {bit : Bool}

theorem Undone.path (h : Rep db Γ L) (hM : Refines L M) (hp : p.On L)
    (hb : PathBase.canGo db p bit = true) :
    (path p).Undone db L bit := by
  obtain ⟨h1, h2, h3⟩ := hp.undone h hM hb
  have hgo : PathBase.go db (Cursor.path p) bit = (.path (PathBase.go db p bit).1,
    (PathBase.go db p bit).2) := by
    cases bit <;> rfl
  unfold Undone
  rw [hgo]
  exact ⟨h1, h2, congrArg Cursor.path h3⟩

theorem Undone.wordPath (h : Rep db Γ L) (hM : Refines L M) (words : Path) (word : BString)
    (hp : p.On L)
    (hb : PathBase.canGo db p bit = true) : (wordPath words word (some p)).Undone db L bit := by
  obtain ⟨h1, h2, h3⟩ := hp.undone h hM hb
  have hgo : PathBase.go db (Cursor.wordPath words word (some p)) bit =
      (.wordPath words word (some (PathBase.go db p bit).1), (PathBase.go db p bit).2) := by
    cases bit <;> rfl
  unfold Undone
  rw [hgo]
  exact ⟨h1, h2, congrArg (fun p => Cursor.wordPath words word (some p)) h3⟩

theorem Undone.andPath (ha : a.Undone db L bit) (hc : c.Undone db L bit) :
    (andPath a c).Undone db L bit := by
  obtain ⟨h1, h2, h3⟩ := ha
  obtain ⟨h4, h5, h6⟩ := hc
  have hgo : PathBase.go db (Cursor.andPath a c) bit =
      (.andPath (PathBase.go db a bit).1 (PathBase.go (PathBase.go db a bit).2 c bit).1,
        (PathBase.go (PathBase.go db a bit).2 c bit).2) := by
    cases bit <;> rfl
  unfold Undone
  rw [hgo, h1]
  refine ⟨h4, ⟨h2, h5⟩, ?_⟩
  show Cursor.andPath (PathBase.goUp db _) (PathBase.goUp db _) = _
  rw [h3, h6]

/-- An or moves the operands that can go and are not behind the other, and the
depths say which these were. -/
theorem Undone.orPath {i j : ℕ} (ha : a.On L) (hc : c.On L)
    (hua : PathBase.canGo db a bit = true → a.Undone db L bit)
    (huc : PathBase.canGo db c bit = true → c.Undone db L bit)
    (hb : PathBase.canGo db (Cursor.orPath a c i j) bit = true) :
    (orPath a c i j).Undone db L bit := by
  rw [canGo_orPath] at hb
  unfold Undone
  rw [go_orPath]
  by_cases hA : (decide (i ≥ j) && PathBase.canGo db a bit) = true
  · obtain ⟨hij, hcanA⟩ := (Bool.and_eq_true _ _).mp hA
    obtain ⟨h1, h2, h3⟩ := hua hcanA
    have hij : i ≥ j := of_decide_eq_true hij
    simp only [hA, if_true, h1]
    by_cases hC : (decide (j ≥ i) && PathBase.canGo db c bit) = true
    · -- both have moved
      obtain ⟨hji, hcanC⟩ := (Bool.and_eq_true _ _).mp hC
      obtain ⟨h4, h5, h6⟩ := huc hcanC
      have hji : j ≥ i := of_decide_eq_true hji
      simp only [hC, if_true]
      refine ⟨h4, ⟨h2, h5⟩, ?_⟩
      show Cursor.goUp db _ = _
      rw [Cursor.goUp, if_pos (by omega)]
      exact congrArg₂ (fun x y => Cursor.orPath x y i j) h3 h6
    · simp only [hC, Bool.false_eq_true, if_false]
      refine ⟨trivial, ⟨h2, hc⟩, ?_⟩
      show Cursor.goUp db _ = _
      rw [Cursor.goUp, if_neg (by omega), if_pos (by omega)]
      exact congrArg (fun x => Cursor.orPath x c i j) h3
  · have hC : (decide (j ≥ i) && PathBase.canGo db c bit) = true := by
      rw [Bool.not_eq_true] at hA
      simpa [hA] using hb
    obtain ⟨hji, hcanC⟩ := (Bool.and_eq_true _ _).mp hC
    obtain ⟨h4, h5, h6⟩ := huc hcanC
    have hji : j ≥ i := of_decide_eq_true hji
    simp only [hA, Bool.false_eq_true, if_false, hC, if_true]
    refine ⟨h4, ⟨ha, h5⟩, ?_⟩
    show Cursor.goUp db _ = _
    rw [Cursor.goUp, if_neg (by omega), if_neg (by omega)]
    exact congrArg (fun y => Cursor.orPath a y i j) h6

/-- A bit that is pushed is popped again, if it is not a zero at the ground. -/
theorem pop_back_push_back {stack : Stack} (hb : bit = true ∨ 0 < stack.count) :
    (stack.push_back bit).pop_back = stack := by
  obtain ⟨bits, count, it⟩ := stack
  cases bit with
  | true => simp [Stack.push_back, Stack.pop_back, Stack.last, countBit]
  | false =>
    have hpos : 0 < count := hb.resolve_left Bool.false_ne_true
    simp [Stack.push_back, Stack.pop_back, Stack.last, countBit]
    omega

/-- The count of bounds goes with the count of the stack. -/
theorem count_go {p : Path} {count : ℕ} (hp : p.count = count) (bit : Bool) :
    (PathBase.go db p bit).1.count = countBit count bit := by
  cases bit with
  | true =>
    show p.count + 1 = _
    rw [hp]
    rfl
  | false =>
    show (if 0 < p.count then p.count - 1 else p.count) = _
    rw [hp]
    show _ = ((count - 1 : ℕ) : ℤ)
    split_ifs <;> omega

/-- A not moves its bounds, and its operand as long as this can go. -/
theorem Undone.notPath (h : Rep db Γ L) (hM : Refines L M) {stack : Stack} {depth : ℕ} (hc : c.On L)
    (hp : p.On L)
    (hs : p.count = stack.count) (hu : PathBase.canGo db c bit = true → c.Undone db L bit)
    (hb : PathBase.canGo db (Cursor.notPath c p stack depth) bit = true) :
    (notPath c p stack depth).Undone db L bit := by
  rw [canGo_notPath] at hb
  have hbounds : PathBase.canGo db p bit = true := ((Bool.and_eq_true _ _).mp hb).1
  obtain ⟨h1, h2, h3⟩ := hp.undone h hM hbounds
  have hpop : (stack.push_back bit).pop_back = stack := by
    apply pop_back_push_back
    cases bit with
    | true => exact Or.inl rfl
    | false =>
      have hpos := hp.count_pos h hM hbounds
      rw [hs] at hpos
      exact Or.inr (Int.natCast_pos.mp hpos)
  have hcount : (PathBase.go db p bit).1.count = (stack.push_back bit).count := count_go hs bit
  unfold Undone
  rw [go_notPath]
  by_cases hf : (decide (depth = 0) && PathBase.canGo db c bit) = true
  · obtain ⟨hd, hcan⟩ := (Bool.and_eq_true _ _).mp hf
    obtain ⟨h4, h5, h6⟩ := hu hcan
    simp only [hf, if_true, h4]
    refine ⟨h1, ⟨h5, h2, hcount⟩, ?_⟩
    obtain rfl : depth = 0 := of_decide_eq_true hd
    show Cursor.goUp db _ = _
    rw [Cursor.goUp, if_pos rfl, hpop]
    exact congrArg₂ (fun x y => Cursor.notPath x y stack 0) h6 h3
  · simp only [hf, Bool.false_eq_true, if_false]
    refine ⟨h1, ⟨hc, h2, hcount⟩, ?_⟩
    show Cursor.goUp db _ = _
    rw [Cursor.goUp, if_neg (Nat.succ_ne_zero depth), hpop, Nat.add_sub_cancel]
    exact congrArg (fun y => Cursor.notPath c y stack depth) h3

/-- **Going up undoes going down**, on every cursor that is on branches. -/
theorem On.undone (h : Rep db Γ L) (hM : Refines L M) : ∀ {c : Cursor}, c.On L → ∀ {bit : Bool},
    PathBase.canGo db c bit = true → c.Undone db L bit
  | .path p, hc, bit, hb => .path h hM hc (by cases bit <;> exact hb)
  | .andPath a c, hc, bit, hb => by
    have hand : PathBase.canGo db (Cursor.andPath a c) bit =
      (PathBase.canGo db a bit && PathBase.canGo db c bit) := by
      cases bit <;> rfl
    rw [hand] at hb
    obtain ⟨ha, hc'⟩ := (Bool.and_eq_true _ _).mp hb
    exact .andPath (On.undone h hM hc.1 ha) (On.undone h hM hc.2 hc')
  | .orPath a c i j, hc, bit, hb => .orPath hc.1 hc.2 (On.undone h hM hc.1) (On.undone h hM hc.2) hb
  | .notPath a bounds stack depth, hc, bit, hb =>
    .notPath h hM hc.1 hc.2.1 hc.2.2 (On.undone h hM hc.1) hb
  | .wordPath words word (some p), hc, bit, hb =>
    .wordPath h hM words word hc (by cases bit <;> exact hb)
  | .wordPath words word none, hc, bit, hb => by cases bit <;> cases hb

end Cursor

/-! ### Building a cursor -/

theorem Path.On.mono {L' : Layout} (hL : ∀ {w n}, L w = some n → L' w = some n) {p : Path}
    (hp : p.On L) : p.On L' := by
  obtain ⟨w, n, hn, hi, hc⟩ := hp
  exact ⟨w, n, hL hn, hi, hc⟩

theorem Cursor.On.mono {L' : Layout} (hL : ∀ {w n}, L w = some n → L' w = some n) : ∀ {c : Cursor},
    c.On L → c.On L'
  | .path _, hc => Path.On.mono hL hc
  | .andPath _ _, hc => ⟨hc.1.mono hL, hc.2.mono hL⟩
  | .orPath _ _ _ _, hc => ⟨hc.1.mono hL, hc.2.mono hL⟩
  | .notPath _ _ _ _, hc => ⟨hc.1.mono hL, hc.2.1.mono hL, hc.2.2⟩
  | .wordPath _ _ (some _), hc => Path.On.mono hL hc
  | .wordPath _ _ none, _ => trivial

/-- The bits of a key are counted twice. -/
theorem count_writeBits : ∀ (v : List Bool) (db : Database) (p : Path) {k : ℕ}, p.count = 2 * k →
    (Path.writeBits db p v).1.count = 2 * height k v
  | [], _, _, _, hk => hk
  | b :: v, db, p, k, hk => by
    have hb : (Path.writeBit db p b).1.count = 2 * height k [b] := by
      cases b with
      | true =>
        show p.count + 1 + 1 = 2 * ((k + 1 : ℕ) : ℤ)
        omega
      | false =>
        show (if 0 < (if 0 < p.count then p.count - 1 else p.count) then
            (if 0 < p.count then p.count - 1 else p.count) - 1
          else (if 0 < p.count then p.count - 1 else p.count)) = 2 * ((k - 1 : ℕ) : ℤ)
        split_ifs <;> omega
    have hrest := count_writeBits v (Path.writeBit db p b).2 (Path.writeBit db p b).1 hb
    rwa [← height_append, List.singleton_append] at hrest

theorem count_get (db : Database) (p : Path) (key : Key) : (Path.get db p key).1.count = 0 := by
  have h := count_writeBits key.bits db p.copy (k := 0) rfl
  rwa [height_closes key.isCode] at h

theorem count_getAll : ∀ (ks : List Key) (db : Database) (p : Path), p.count = 0 →
    (Path.getAll db p ks).1.count = 0
  | [], _, _, hp => hp
  | key :: ks, db, p, _ => count_getAll ks _ _ (count_get db p key)

theorem height_bitsOf : ∀ ks : List Key, height 0 (bitsOf ks) = 0
  | [] => rfl
  | key :: ks => by
    have hb : bitsOf (key :: ks) = key.bits ++ bitsOf ks := by simp [bitsOf]
    rw [hb, height_append, height_closes key.isCode, height_bitsOf ks]

theorem Path.copy_of_count {p : Path} (hp : p.count = 0) : p.copy = p := by
  obtain ⟨i, k⟩ := p
  obtain rfl : k = 0 := hp
  rfl

/-- A path from the root, on the file it is made in. -/
theorem Rep.on_getAll (h : Rep db Γ L) (hM : Refines L M) (ks : List Key) :
    ∃ Γ' L' M' n, Rep (Path.getAll db .root ks).2 Γ' L' ∧ Refines L' M' ∧
      (∀ {w n}, L w = some n → L' w = some n) ∧
      L' (bitsOf ks) = some n ∧ (Path.getAll db .root ks).1 = ⟨n.place, 0⟩ := by
  obtain ⟨r, hr, h0⟩ := h.root
  obtain ⟨Γ', L', n, hn, h', hw, hg⟩ := h.getAll ks (p := .root) hr h0.symm
  rw [List.nil_append] at hw hg
  refine ⟨Γ', L', _, n, h', hM.grown h'.toWF hg, hg.old, hw, ?_⟩
  rw [hn, ← count_getAll ks db .root rfl]

/-- The cursor of a word has the path of the word, which is there, or none. -/
theorem Cursor.on_newWordPath (toLower : BString → BString) (h : Rep db Γ L)
    {ks : List Key} {n : Node}
    (hn : L (bitsOf ks) = some n) (word : BString) :
    (Cursor.newWordPath toLower db ⟨n.place, 0⟩ word).On L ∧
      (Cursor.newWordPath toLower db ⟨n.place, 0⟩ word).copy =
        .newWordPath toLower db ⟨n.place, 0⟩ word := by
  simp only [Cursor.newWordPath, h.contains hn 0]
  have hcount := count_get db ⟨n.place, 0⟩ (.of (toLower word))
  cases hm : L (bitsOf ks ++ (Key.of (toLower word)).bits) with
  | none => exact ⟨trivial, rfl⟩
  | some m =>
    obtain ⟨hplace, -⟩ := h.writeBits_of_some (p := ⟨n.place, 0⟩) hn rfl hm
    simp only [Option.isSome_some, if_true]
    refine ⟨⟨_, m, hm, hplace, ?_⟩, ?_⟩
    · rw [hcount, ← bitsOf_concat, height_bitsOf]
      rfl
    · show Cursor.wordPath _ word (some (Path.copy _)) = _
      rw [Path.copy_of_count hcount, Path.copy_of_count rfl]

/-- The cursor that is built is on branches, and is what its copy is. -/
theorem CursorExpr.on_build (toLower : BString → BString) :
    ∀ (e : CursorExpr) {db : Database} {Γ : Heap} {L : Layout} {M : Store},
    Rep db Γ L → Refines L M → ∃ Γ' L' M', Rep (e.build toLower db).2 Γ' L' ∧ Refines L' M' ∧
      (∀ {w n}, L w = some n → L' w = some n) ∧ (e.build toLower db).1.On L' ∧
      (e.build toLower db).1.copy = (e.build toLower db).1
  | path ks, db, Γ, L, M, h, hM => by
    obtain ⟨Γ', L', M', n, h', hM', hL, hn, he⟩ := h.on_getAll hM ks
    refine ⟨Γ', L', M', h', hM', hL, ?_, ?_⟩
    · show Path.On L' (Path.getAll db .root ks).1
      rw [he]
      exact ⟨_, n, hn, rfl, by rw [height_bitsOf]; rfl⟩
    · show Cursor.path (Path.getAll db .root ks).1.copy = Cursor.path (Path.getAll db .root ks).1
      rw [he]
      rfl
  | andPath a b, db, Γ, L, M, h, hM => by
    obtain ⟨Γ₁, L₁, M₁, h₁, hM₁, hL₁, ha, hca⟩ := a.on_build toLower h hM
    obtain ⟨Γ₂, L₂, M₂, h₂, hM₂, hL₂, hb, hcb⟩ := b.on_build toLower h₁ hM₁
    refine ⟨Γ₂, L₂, M₂, h₂, hM₂, fun hw => hL₂ (hL₁ hw), ?_, ?_⟩
    · show Cursor.On L₂ (a.build toLower db).1.copy ∧ Cursor.On L₂ (b.build toLower _).1.copy
      rw [hca, hcb]
      exact ⟨ha.mono hL₂, hb⟩
    · show Cursor.andPath (Cursor.copy (Cursor.copy _)) (Cursor.copy (Cursor.copy _)) =
        Cursor.andPath (Cursor.copy _) (Cursor.copy _)
      rw [hca, hca, hcb, hcb]
  | orPath a b, db, Γ, L, M, h, hM => by
    obtain ⟨Γ₁, L₁, M₁, h₁, hM₁, hL₁, ha, hca⟩ := a.on_build toLower h hM
    obtain ⟨Γ₂, L₂, M₂, h₂, hM₂, hL₂, hb, hcb⟩ := b.on_build toLower h₁ hM₁
    refine ⟨Γ₂, L₂, M₂, h₂, hM₂, fun hw => hL₂ (hL₁ hw), ?_, ?_⟩
    · show Cursor.On L₂ (a.build toLower db).1.copy ∧ Cursor.On L₂ (b.build toLower _).1.copy
      rw [hca, hcb]
      exact ⟨ha.mono hL₂, hb⟩
    · show Cursor.orPath (Cursor.copy (Cursor.copy _)) (Cursor.copy (Cursor.copy _)) 0 0 =
        Cursor.orPath (Cursor.copy _) (Cursor.copy _) 0 0
      rw [hca, hca, hcb, hcb]
  | notPath a bounds, db, Γ, L, M, h, hM => by
    obtain ⟨Γ₁, L₁, M₁, h₁, hM₁, hL₁, ha, hca⟩ := a.on_build toLower h hM
    obtain ⟨Γ₂, L₂, M₂, n, h₂, hM₂, hL₂, hn, he⟩ := h₁.on_getAll hM₁ bounds
    refine ⟨Γ₂, L₂, M₂, h₂, hM₂, fun hw => hL₂ (hL₁ hw), ?_, ?_⟩
    · show Cursor.On L₂ (a.build toLower db).1.copy ∧
        Path.On L₂ (Path.getAll _ .root bounds).1.copy ∧ _
      rw [hca, he]
      exact ⟨ha.mono hL₂, ⟨_, n, hn, rfl, by rw [height_bitsOf]; rfl⟩, rfl⟩
    · show Cursor.notPath (Cursor.copy (Cursor.copy _)) (Path.copy (Path.copy _)) ⟨[], 0, 0⟩ 0 =
        Cursor.notPath (Cursor.copy _) (Path.copy _) .empty 0
      rw [hca, hca]
      rfl
  | wordPath words word, db, Γ, L, M, h, hM => by
    obtain ⟨Γ', L', M', n, h', hM', hL, hn, he⟩ := h.on_getAll hM words
    have hbuild : (CursorExpr.wordPath words word).build toLower db =
        (.newWordPath toLower (Path.getAll db .root words).2 ⟨n.place, 0⟩ word,
          (Path.getAll db .root words).2) := by
      simp only [build, he]
      rfl
    rw [hbuild]
    exact ⟨Γ', L', M', h', hM', hL, Cursor.on_newWordPath toLower h' hn word⟩

/-! ### Walks -/

/-- The cursors that a walk from `start` comes to, with the way it has gone:
it goes left or right where it can, and up where it has gone down. -/
inductive Reached (db : Database) (start : Cursor) : Cursor → List Bool → Prop
  | start : Reached db start start []
  | go {c : Cursor} {w : List Bool} (b : Bool) (h : Reached db start c w)
      (hb : PathBase.canGo db c b = true) :
      Reached db start (PathBase.go db c b).1 (w ++ [b])
  | goUp {c : Cursor} {w : List Bool} {b : Bool} (h : Reached db start c (w ++ [b])) :
      Reached db start (PathBase.goUp db c) w

/-- The cursors that are reached by going left and right only. -/
inductive Descends (db : Database) (start : Cursor) : Cursor → List Bool → Prop
  | start : Descends db start start []
  | go {c : Cursor} {w : List Bool} (b : Bool) (h : Descends db start c w)
      (hb : PathBase.canGo db c b = true) :
      Descends db start (PathBase.go db c b).1 (w ++ [b])

variable {start c : Cursor} {w : List Bool}

theorem Descends.on (h : Rep db Γ L) (hM : Refines L M) (hs : start.On L)
    (hd : Descends db start c w) : c.On L := by
  induction hd with
  | start => exact hs
  | go b _ hb ih => exact (ih.undone h hM hb).2.1

/-- Going up leads back over the last step. -/
theorem Descends.goUp (h : Rep db Γ L) (hM : Refines L M) (hs : start.On L) {b : Bool}
    (hd : Descends db start c (w ++ [b])) :
    Descends db start (PathBase.goUp db c) w := by
  generalize hv : w ++ [b] = v at hd
  cases hd with
  | start => simp at hv
  | go b' hd hb =>
    obtain ⟨rfl, -⟩ := List.append_inj' hv rfl
    rw [((hd.on h hM hs).undone h hM hb).2.2]
    exact hd

/-- Whatever a walk went up for, its cursor is one that only went down. -/
theorem Reached.descends (h : Rep db Γ L) (hM : Refines L M) (hs : start.On L)
    (hr : Reached db start c w) :
    Descends db start c w := by
  induction hr with
  | start => exact .start
  | go b _ hb ih => exact ih.go b hb
  | goUp _ ih => exact ih.goUp h hM hs

end

/-- **Going up undoes going down.** After any run of operations, on any cursor
that is built from paths and words, wherever a walk has come to: if it can go
left or right, then going there leaves the file alone, and going up again gives
the cursor back, with the branches and counts of its paths, its depths and its
stacks. -/
theorem goUp_go (toLower : BString → BString) (ops : List Op) (e : CursorExpr) :
    ∃ (answers : List Answer) (db : Database), runAll .create ops = some (answers, db) ∧
      let (start, db) := e.build toLower db
      ∀ (c : Cursor) (w : List Bool), Reached db start c w → ∀ b, PathBase.canGo db c b = true →
        (PathBase.go db c b).2 = db ∧ PathBase.goUp db (PathBase.go db c b).1 = c := by
  obtain ⟨db, he, Γ, L, h, hM⟩ := stores_create.runAll ops
  obtain ⟨Γ', L', M', h', hM', -, hs, -⟩ := e.on_build toLower h hM
  refine ⟨_, db, he, fun c w hr b hb => ?_⟩
  obtain ⟨h1, -, h2⟩ := ((hr.descends h' hM' hs).on h' hM' hs).undone h' hM' hb
  exact ⟨h1, h2⟩

/-- Or of the root with itself, where one key is stored. -/
theorem goUp_go_or :
    ∃ (answers : List Answer) (db : Database),
      runAll .create [⟨[.of 5], .hasData⟩] = some (answers, db) ∧
    let (start, db) := (CursorExpr.orPath (.path []) (.path [])).build id db
    PathBase.canGo db start true = true ∧
      PathBase.goUp db (PathBase.go db start true).1 = start := by
  obtain ⟨answers, db, he, hundo⟩ :=
    goUp_go id [⟨[.of 5], .hasData⟩] (.orPath (.path []) (.path []))
  obtain ⟨db', he', Γ, L, h, hM⟩ := stores_create.runAll [⟨[.of 5], .hasData⟩]
  obtain ⟨-, rfl⟩ := Prod.mk.inj (Option.some.inj (he.symm.trans he'))
  have hkey : (L (bitsOf [.of 5])).isSome := by
    rw [← hM.isSome]
    simp [applyAll, Op.apply, Action.apply, Store.visit]
  obtain ⟨m, hm⟩ := Option.isSome_iff_exists.mp hkey
  obtain ⟨n, hn⟩ := h.of_isPrefix hm (u := [true]) (by decide +kernel)
  obtain ⟨r, hr, h0⟩ := h.root
  have hcan : PathBase.canGo db (Path.root) true = true := by
    have hroot : StandsAt L [] .root [] := ⟨r, by simpa using hr, h0.symm⟩
    rw [h.canGo hroot]
    simp [hn]
  have hor : PathBase.canGo db (Cursor.orPath (.path .root) (.path .root) 0 0) true = true := by
    have hpath : PathBase.canGo db (Cursor.path .root) true = true := hcan
    rw [canGo_orPath, hpath]
    rfl
  exact ⟨answers, db, he, hor, (hundo _ [] .start true hor).2⟩

end BeeFish
