/-
# Query cursors

The paths of a query (query/AndPath.hpp, OrPath.hpp, NotPath.hpp,
WordPath.hpp) are cursors over other cursors. An and moves both its operands;
an or keeps the depth of each and moves those that have not fallen behind; a
not walks its bounds, follows its operand as far as it goes and refuses the
last bit of a key the operand has; a word is the path of the word, or nothing
if the word is not there.

Each is a cursor on a tree (`andPath_tracks`, `orPath_tracks`,
`notPath_tracks`, `wordPath_tracks`): the intersection, the union or the
difference of the trees of its operands.

Key definitions: `Cursor`, `Behind`.
-/
import BeeFish.Keys

namespace BeeFish

open BitCode

inductive Cursor where
  | path (path : Path)
  | andPath (a b : Cursor)
  | orPath (a b : Cursor) (aDepth bDepth : ℕ)
  | notPath (path : Cursor) (bounds : Path) (stack : Stack) (depth : ℕ)
  | wordPath (words : Path) (word : BString) (a : Option Path)

namespace Cursor

/-! ### Cursors -/

/-- `WordPath::WordPath`; `toLower` is the lower case of a string. -/
def newWordPath (toLower : BString → BString) (db : Database) (words : Path)
    (word : BString) : Cursor :=
  let lower := toLower word
  wordPath words word
    (if Path.contains db words (.of lower) then some (Path.get db words (.of lower)).1 else none)

def canGoLeft (db : Database) : Cursor → Bool
  | path p => p.canGoLeft db
  | andPath a b => a.canGoLeft db && b.canGoLeft db
  | orPath a b aDepth bDepth =>
    (decide (aDepth ≥ bDepth) && a.canGoLeft db) || (decide (bDepth ≥ aDepth) && b.canGoLeft db)
  | notPath p bounds stack depth =>
    if depth = 0 ∧ stack.count = 1 ∧ p.canGoLeft db = true then false else bounds.canGoLeft db
  | wordPath _ _ (some p) => p.canGoLeft db
  | wordPath _ _ none => false

def canGoRight (db : Database) : Cursor → Bool
  | path p => p.canGoRight db
  | andPath a b => a.canGoRight db && b.canGoRight db
  | orPath a b aDepth bDepth =>
    (decide (aDepth ≥ bDepth) && a.canGoRight db) || (decide (bDepth ≥ aDepth) && b.canGoRight db)
  | notPath _ bounds _ _ => bounds.canGoRight db
  | wordPath _ _ (some p) => p.canGoRight db
  | wordPath _ _ none => false

def goLeft (db : Database) : Cursor → Cursor × Database
  | path p =>
    let (p, db) := p.goLeft db
    (path p, db)
  | andPath a b =>
    let (a, db) := a.goLeft db
    let (b, db) := b.goLeft db
    (andPath a b, db)
  | orPath a b aDepth bDepth =>
    let incrementA := decide (aDepth ≥ bDepth) && a.canGoLeft db
    let (a, db) := if incrementA then a.goLeft db else (a, db)
    let incrementB := decide (bDepth ≥ aDepth) && b.canGoLeft db
    let (b, db) := if incrementB then b.goLeft db else (b, db)
    (orPath a b (if incrementA then aDepth + 1 else aDepth) (if incrementB then bDepth + 1
      else bDepth), db)
  | notPath p bounds stack depth =>
    let follows := decide (depth = 0) && p.canGoLeft db
    let (p, db) := if follows then p.goLeft db else (p, db)
    let depth := if follows then depth else depth + 1
    let (bounds, db) := bounds.goLeft db
    (notPath p bounds (stack.push_back false) depth, db)
  | wordPath words word (some p) =>
    let (p, db) := p.goLeft db
    (wordPath words word (some p), db)
  | wordPath words word none => (wordPath words word none, db)

def goRight (db : Database) : Cursor → Cursor × Database
  | path p =>
    let (p, db) := p.goRight db
    (path p, db)
  | andPath a b =>
    let (a, db) := a.goRight db
    let (b, db) := b.goRight db
    (andPath a b, db)
  | orPath a b aDepth bDepth =>
    let incrementA := decide (aDepth ≥ bDepth) && a.canGoRight db
    let (a, db) := if incrementA then a.goRight db else (a, db)
    let incrementB := decide (bDepth ≥ aDepth) && b.canGoRight db
    let (b, db) := if incrementB then b.goRight db else (b, db)
    (orPath a b (if incrementA then aDepth + 1 else aDepth) (if incrementB then bDepth + 1
      else bDepth), db)
  | notPath p bounds stack depth =>
    let follows := decide (depth = 0) && p.canGoRight db
    let (p, db) := if follows then p.goRight db else (p, db)
    let depth := if follows then depth else depth + 1
    let (bounds, db) := bounds.goRight db
    (notPath p bounds (stack.push_back true) depth, db)
  | wordPath words word (some p) =>
    let (p, db) := p.goRight db
    (wordPath words word (some p), db)
  | wordPath words word none => (wordPath words word none, db)

def goUp (db : Database) : Cursor → Cursor
  | path p => path (p.goUp db)
  | andPath a b => andPath (a.goUp db) (b.goUp db)
  | orPath a b aDepth bDepth =>
    if aDepth = bDepth then orPath (a.goUp db) (b.goUp db) (aDepth - 1) (bDepth - 1)
    else if aDepth > bDepth then orPath (a.goUp db) b (aDepth - 1) bDepth
    else orPath a (b.goUp db) aDepth (bDepth - 1)
  | notPath p bounds stack depth =>
    if depth = 0 then notPath (p.goUp db) (bounds.goUp db) stack.pop_back depth
    else notPath p (bounds.goUp db) stack.pop_back (depth - 1)
  | wordPath words word (some p) => wordPath words word (some (p.goUp db))
  | wordPath words word none => wordPath words word none

/-- The copy of a stack has its bits only. -/
def copy : Cursor → Cursor
  | path p => path p.copy
  | andPath a b => andPath a.copy b.copy
  | orPath a b aDepth bDepth => orPath a.copy b.copy aDepth bDepth
  | notPath p bounds stack depth => notPath p.copy bounds.copy ⟨stack.bits, 0, 0⟩ depth
  | wordPath words word a => wordPath words.copy word (a.map Path.copy)

/-- Only a path has its own `isDeadEnd`. -/
def isDeadEnd (db : Database) : Cursor → Bool
  | path p => p.isDeadEnd db
  | c => !(c.canGoLeft db || c.canGoRight db)

instance : PathBase Cursor where
  canGoLeft := canGoLeft
  canGoRight := canGoRight
  goLeft := goLeft
  goRight := goRight
  goUp := goUp
  copy := copy
  isDeadEnd := isDeadEnd

end Cursor

variable {P : List Bool → Prop} {db : Database} {A B : BitTree} {RA RB : Cursor → List Bool → Prop}

/-! ### Paths and words -/

theorem path_tracks {R : Path → List Bool → Prop} (hT : TracksOn P db A R) :
    TracksOn P db A (fun c w => ∃ p, c = Cursor.path p ∧ R p w) where
  canGo := by
    rintro _ w ⟨p, rfl, hp⟩ hs b
    rw [← hT.canGo hp hs b]
    cases b <;> rfl
  go := by
    rintro _ w ⟨p, rfl, hp⟩ hs b hm
    obtain ⟨h1, h2⟩ := hT.go hp hs b hm
    cases b <;> exact ⟨h1, _, rfl, h2⟩
  goUp := by
    rintro _ w b ⟨p, rfl, hp⟩ hs
    exact ⟨_, rfl, hT.goUp hp hs⟩
  isDeadEnd := by
    rintro _ w ⟨p, rfl, hp⟩ hs
    exact hT.isDeadEnd hp hs

/-- The default `isDeadEnd`. -/
theorem isDeadEnd_of_canGo {c : Cursor} {w : List Bool}
    (hd : PathBase.isDeadEnd db c = !(PathBase.canGo db c false || PathBase.canGo db c true))
    (hc : ∀ b, PathBase.canGo db c b = A.mem (w ++ [b])) :
    PathBase.isDeadEnd db c = !(A.mem (w ++ [false]) || A.mem (w ++ [true])) := by
  rw [hd, hc, hc]

theorem wordPath_tracks {R : Path → List Bool → Prop} (hT : TracksOn P db A R) :
    TracksOn P db A (fun c w => ∃ words word p, c = Cursor.wordPath words word (some p) ∧
      R p w) where
  canGo := by
    rintro _ w ⟨words, word, p, rfl, hp⟩ hs b
    rw [← hT.canGo hp hs b]
    cases b <;> rfl
  go := by
    rintro _ w ⟨words, word, p, rfl, hp⟩ hs b hm
    obtain ⟨h1, h2⟩ := hT.go hp hs b hm
    cases b <;> exact ⟨h1, words, word, _, rfl, h2⟩
  goUp := by
    rintro _ w b ⟨words, word, p, rfl, hp⟩ hs
    exact ⟨words, word, _, rfl, hT.goUp hp hs⟩
  isDeadEnd := by
    rintro _ w ⟨words, word, p, rfl, hp⟩ hs
    refine isDeadEnd_of_canGo rfl fun b => ?_
    rw [← hT.canGo hp hs b]
    cases b <;> rfl

/-- The cursor of a word that is not there goes nowhere. -/
theorem wordPath_none_tracks :
    TracksOn P db .leaf (fun c w => ∃ words word, c = Cursor.wordPath words word none ∧
      w = []) where
  canGo := by
    rintro _ _ ⟨words, word, rfl, rfl⟩ _ b
    cases b <;> rfl
  go := by
    rintro _ _ ⟨words, word, rfl, rfl⟩ _ b hm
    cases b <;> cases hm
  goUp := by
    rintro _ w b ⟨words, word, rfl, hw⟩ _
    simp at hw
  isDeadEnd := by
    rintro _ _ ⟨words, word, rfl, rfl⟩ _
    rfl

/-! ### And -/

theorem andPath_tracks (hA : TracksOn P db A RA) (hB : TracksOn P db B RB) :
    TracksOn P db (A.inter B) (fun c w => ∃ a b, c = Cursor.andPath a b ∧ RA a w ∧ RB b w) where
  canGo := by
    rintro _ w ⟨a, b, rfl, ha, hb⟩ hs c
    have hc : PathBase.canGo db (Cursor.andPath a b) c =
      (PathBase.canGo db a c && PathBase.canGo db b c) := by
      cases c <;> rfl
    rw [hc, hA.canGo ha hs, hB.canGo hb hs]
    rfl
  go := by
    rintro _ w ⟨a, b, rfl, ha, hb⟩ hs c hm
    obtain ⟨hma, hmb⟩ := (Bool.and_eq_true _ _).mp hm
    have hc : PathBase.go db (Cursor.andPath a b) c =
        (.andPath (PathBase.go db a c).1 (PathBase.go (PathBase.go db a c).2 b c).1,
          (PathBase.go (PathBase.go db a c).2 b c).2) := by
      cases c <;> rfl
    obtain ⟨h1, h2⟩ := hA.go ha hs c hma
    obtain ⟨h3, h4⟩ := hB.go hb hs c hmb
    rw [hc, h1]
    exact ⟨h3, _, _, rfl, h2, h4⟩
  goUp := by
    rintro _ w c ⟨a, b, rfl, ha, hb⟩ hs
    exact ⟨_, _, rfl, hA.goUp ha hs, hB.goUp hb hs⟩
  isDeadEnd := by
    rintro _ w ⟨a, b, rfl, ha, hb⟩ hs
    refine isDeadEnd_of_canGo rfl fun c => ?_
    have hc : PathBase.canGo db (Cursor.andPath a b) c =
      (PathBase.canGo db a c && PathBase.canGo db b c) := by
      cases c <;> rfl
    rw [hc, hA.canGo ha hs, hB.canGo hb hs]
    rfl

/-! ### Operands that fall behind -/

/-- An operand stands at `u`; since then the way was `v`, which it could not
go. -/
structure Behind (A : BitTree) (S : List Bool → Prop) (u v : List Bool) : Prop where
  stands : S u
  off : ∀ c v', v = c :: v' → A.mem (u ++ [c]) = false

namespace Behind

variable {S : List Bool → Prop} {u v : List Bool}

theorem here (h : S u) : Behind A S u [] := ⟨h, fun _ _ h => by cases h⟩

theorem mem_eq_false (h : Behind A S u v) (hv : v ≠ []) (c : Bool) :
    A.mem (u ++ v ++ [c]) = false := by
  obtain ⟨b, v, rfl⟩ := List.exists_cons_of_ne_nil hv
  by_contra hm
  have hb : A.mem (u ++ [b]) = true :=
    A.mem_of_append (v := v ++ [c]) (by simpa using hm)
  rw [h.off b v rfl] at hb
  cases hb

theorem stay (h : Behind A S u v) {c : Bool} (hm : A.mem (u ++ v ++ [c]) = false) :
    Behind A S u (v ++ [c]) where
  stands := h.stands
  off b v' hb := by
    cases v with
    | nil =>
      obtain ⟨rfl, -⟩ := List.cons.inj hb
      simpa using hm
    | cons a v =>
      obtain ⟨rfl, -⟩ := List.cons.inj hb
      exact h.off a v rfl

theorem up {c : Bool} (h : Behind A S u (v ++ [c])) : Behind A S u v where
  stands := h.stands
  off b v' hb := by
    subst hb
    exact h.off b (v' ++ [c]) rfl

/-- Whether the operand is at the end of the way and can follow one bit. -/
theorem follows_eq (hA : TracksOn P db A RA) {a : Cursor} (h : Behind A (RA a) u v)
    (hs : P (u ++ v)) {Q : Prop}
    [Decidable Q] (hQ : Q ↔ v = []) (c : Bool) :
    (decide Q && PathBase.canGo db a c) = A.mem (u ++ v ++ [c]) := by
  by_cases hv : v = []
  · subst hv
    rw [List.append_nil] at hs ⊢
    rw [hA.canGo h.stands hs]
    simp [hQ]
  · rw [h.mem_eq_false hv]
    simp [hQ, hv]

/-- An operand that can follow does, and else stays and falls behind. -/
theorem go (hA : TracksOn P db A RA) {a : Cursor} (h : Behind A (RA a) u v) (hs : P (u ++ v))
    (c : Bool) :
    ∃ a', (if A.mem (u ++ v ++ [c]) = true then PathBase.go db a c else (a, db)) = (a', db) ∧
      (A.mem (u ++ v ++ [c]) = true → v = [] ∧ Behind A (RA a') (u ++ v ++ [c]) []) ∧
      (A.mem (u ++ v ++ [c]) = false → Behind A (RA a') u (v ++ [c])) := by
  by_cases hm : A.mem (u ++ v ++ [c]) = true
  · have hv : v = [] := by
      by_contra hv
      rw [h.mem_eq_false hv] at hm
      cases hm
    subst hv
    rw [List.append_nil] at hs hm ⊢
    obtain ⟨h1, h2⟩ := hA.go h.stands hs c hm
    refine ⟨(PathBase.go db a c).1, ?_, fun _ => ⟨rfl, .here h2⟩, fun hf => ?_⟩
    · rw [if_pos hm]
      exact Prod.ext rfl h1
    · rw [hm] at hf
      cases hf
  · refine ⟨a, if_neg hm, fun ht => absurd ht hm, fun hf => h.stay hf⟩

/-- The same with the depth of the operand. -/
theorem go_length (hA : TracksOn P db A RA) {a : Cursor} (h : Behind A (RA a) u v) (hs : P (u ++ v))
    (c : Bool) :
    ∃ a' u' v', (if A.mem (u ++ v ++ [c]) = true then PathBase.go db a c else (a, db)) = (a', db) ∧
      (if A.mem (u ++ v ++ [c]) = true then u.length + 1 else u.length) = u'.length ∧
      u ++ v ++ [c] = u' ++ v' ∧ Behind A (RA a') u' v' ∧
        (A.mem (u ++ v ++ [c]) = true → v' = []) := by
  obtain ⟨a', hgo, ht, hf⟩ := h.go hA hs c
  by_cases hm : A.mem (u ++ v ++ [c]) = true
  · obtain ⟨rfl, hb⟩ := ht hm
    exact ⟨a', u ++ [] ++ [c], [], hgo, by rw [if_pos hm]; simp, by simp, hb, fun _ => rfl⟩
  · exact ⟨a', u, v ++ [c], hgo, if_neg hm, by simp, hf (by simpa using hm), fun h => absurd h hm⟩

/-- An operand at the end of the way comes up with it. -/
theorem goUp (hA : TracksOn P db A RA) {a : Cursor} {w : List Bool} {c : Bool}
    (h : Behind A (RA a) u v)
    (hw : w ++ [c] = u ++ v) (hs : P w) (hv : v = []) :
    u.length = w.length + 1 ∧ Behind A (RA (PathBase.goUp db a)) w [] := by
  subst hv
  rw [List.append_nil] at hw
  subst hw
  exact ⟨by simp, .here (hA.goUp h.stands hs)⟩

/-- An operand that fell behind stays where it is. -/
theorem exists_up {w : List Bool} {c : Bool} (h : Behind A S u v) (hw : w ++ [c] = u ++ v)
    (hv : v ≠ []) :
    ∃ v', v = v' ++ [c] ∧ w = u ++ v' ∧ Behind A S u v' := by
  obtain ⟨v', c', rfl⟩ : ∃ v' c', v = v' ++ [c'] := by
    obtain ⟨v', c', hvc⟩ := (List.eq_nil_or_concat v).resolve_left hv
    exact ⟨v', c', by rw [hvc, List.concat_eq_append]⟩
  rw [← List.append_assoc] at hw
  obtain ⟨rfl, hc⟩ := List.append_inj' hw rfl
  obtain rfl := (List.cons.inj hc).1
  exact ⟨v', rfl, rfl, h.up⟩

end Behind

/-! ### Or -/

/-- The operands of an or stand on the way to `w`, and one of them at `w`. -/
def OrAt (A B : BitTree) (RA RB : Cursor → List Bool → Prop) (c : Cursor) (w : List Bool) : Prop :=
  ∃ a b u v u' v', c = .orPath a b u.length u'.length ∧ w = u ++ v ∧ w = u' ++ v' ∧
    Behind A (RA a) u v ∧ Behind B (RB b) u' v' ∧ (v = [] ∨ v' = [])

/-- The deeper operand is the one at `w`. -/
theorem length_ge_iff {u v u' v' : List Bool} (he : u ++ v = u' ++ v') (hv : v = [] ∨ v' = []) :
    u.length ≥ u'.length ↔ v = [] := by
  have hlen := congrArg List.length he
  simp only [List.length_append] at hlen
  constructor
  · intro h
    rcases hv with hv | rfl
    · exact hv
    · exact List.length_eq_zero_iff.mp (by simp only [List.length_nil] at hlen; omega)
  · rintro rfl
    simp only [List.length_nil] at hlen
    omega

theorem canGo_orPath (a b : Cursor) (i j : ℕ) (c : Bool) :
    PathBase.canGo db (Cursor.orPath a b i j) c =
    ((decide (i ≥ j) && PathBase.canGo db a c) || (decide (j ≥ i) && PathBase.canGo db b c)) := by
  cases c <;> rfl

theorem go_orPath (a b : Cursor) (i j : ℕ) (c : Bool) : PathBase.go db (Cursor.orPath a b i j) c =
    let incrementA := decide (i ≥ j) && PathBase.canGo db a c
    let p := if incrementA = true then PathBase.go db a c else (a, db)
    let incrementB := decide (j ≥ i) && PathBase.canGo p.2 b c
    let q := if incrementB = true then PathBase.go p.2 b c else (b, p.2)
    (.orPath p.1 q.1 (if incrementA = true then i + 1 else i) (if incrementB = true then j + 1
      else j), q.2) := by
  cases c <;> rfl

theorem orPath_canGo (hA : TracksOn P db A RA) (hB : TracksOn P db B RB) {c : Cursor}
    {w : List Bool}
    (h : OrAt A B RA RB c w) (hs : P w) (bit : Bool) :
    PathBase.canGo db c bit = (A.union B).mem (w ++ [bit]) := by
  obtain ⟨a, b, u, v, u', v', rfl, rfl, he, ha, hb, hv⟩ := h
  rw [canGo_orPath, ha.follows_eq hA hs (length_ge_iff he hv),
    hb.follows_eq hB (he ▸ hs) (length_ge_iff he.symm hv.symm), ← he]
  rfl

theorem orPath_go (hA : TracksOn P db A RA) (hB : TracksOn P db B RB) {c : Cursor} {w : List Bool}
    (h : OrAt A B RA RB c w) (hs : P w) (bit : Bool) (hm : (A.union B).mem (w ++ [bit]) = true) :
    (PathBase.go db c bit).2 = db ∧ OrAt A B RA RB (PathBase.go db c bit).1 (w ++ [bit]) := by
  obtain ⟨a, b, u, v, u', v', rfl, rfl, he, ha, hb, hv⟩ := h
  obtain ⟨a', u₁, v₁, hga, hu₁, he₁, ha₁, hv₁⟩ := ha.go_length hA hs bit
  obtain ⟨b', u₂, v₂, hgb, hu₂, he₂, hb₂, hv₂⟩ := hb.go_length hB (he ▸ hs) bit
  have hgo : PathBase.go db (Cursor.orPath a b u.length u'.length) bit =
      (.orPath a' b' (if A.mem (u ++ v ++ [bit]) = true then u.length + 1 else u.length)
        (if B.mem (u' ++ v' ++ [bit]) = true then u'.length + 1 else u'.length), db) := by
    rw [go_orPath, ha.follows_eq hA hs (length_ge_iff he hv)]
    simp only [hga, hb.follows_eq hB (he ▸ hs) (length_ge_iff he.symm hv.symm), hgb]
  rw [hgo, hu₁, hu₂]
  rw [← he] at he₂ hv₂
  exact ⟨rfl, a', b', u₁, v₁, u₂, v₂, rfl, he₁, he₂, ha₁, hb₂,
    ((Bool.or_eq_true _ _).mp hm).imp hv₁ hv₂⟩

theorem orPath_goUp (hA : TracksOn P db A RA) (hB : TracksOn P db B RB) {c : Cursor} {w : List Bool}
    {bit : Bool}
    (h : OrAt A B RA RB c (w ++ [bit])) (hs : P w) : OrAt A B RA RB (PathBase.goUp db c) w := by
  obtain ⟨a, b, u, v, u', v', rfl, he, he', ha, hb, hv⟩ := h
  have hge := length_ge_iff (he.symm.trans he') hv
  have hge' := length_ge_iff (he'.symm.trans he) hv.symm
  show OrAt A B RA RB (Cursor.goUp db (.orPath a b u.length u'.length)) w
  rw [Cursor.goUp]
  by_cases hv1 : v = [] <;> by_cases hv2 : v' = []
  · obtain ⟨hl, ha'⟩ := ha.goUp hA he hs hv1
    obtain ⟨hl', hb'⟩ := hb.goUp hB he' hs hv2
    rw [if_pos (by omega), hl, hl']
    exact ⟨_, _, w, [], w, [], rfl, by simp, by simp, ha', hb', Or.inl rfl⟩
  · obtain ⟨hl, ha'⟩ := ha.goUp hA he hs hv1
    obtain ⟨z, -, hz, hb'⟩ := hb.exists_up he' hv2
    have h1 := hge.mpr hv1
    have h2 := hge'.not.mpr hv2
    rw [if_neg (by omega), if_pos (by omega), hl]
    exact ⟨_, _, w, [], u', z, rfl, by simp, hz, ha', hb', Or.inl rfl⟩
  · obtain ⟨hl, hb'⟩ := hb.goUp hB he' hs hv2
    obtain ⟨z, -, hz, ha'⟩ := ha.exists_up he hv1
    have h1 := hge.not.mpr hv1
    rw [if_neg (by omega), if_neg (by omega), hl]
    exact ⟨_, _, u, z, w, [], rfl, hz, by simp, ha', hb', Or.inr rfl⟩
  · exact absurd hv (by simp [hv1, hv2])

theorem orPath_tracks (hA : TracksOn P db A RA) (hB : TracksOn P db B RB) :
    TracksOn P db (A.union B) (OrAt A B RA RB) where
  canGo h hs := orPath_canGo hA hB h hs
  go h hs := orPath_go hA hB h hs
  goUp h hs := orPath_goUp hA hB h hs
  isDeadEnd h hs := by
    refine isDeadEnd_of_canGo ?_ (orPath_canGo hA hB h hs)
    obtain ⟨a, b, u, v, u', v', rfl, -⟩ := h
    rfl

/-! ### Not -/

/-- The bounds and the stack of a not stand at `w`, and its operand on the way
to it. -/
def NotAt (A B : BitTree) (RA : Path → List Bool → Prop) (RB : Cursor → List Bool → Prop)
    (c : Cursor)
    (w : List Bool) : Prop :=
  ∃ b bounds stack u v, c = .notPath b bounds stack v.length ∧ w = u ++ v ∧ Behind B (RB b) u v ∧
    RA bounds w ∧ StackAt w stack ∧ A.mem w = true

theorem canGo_notPath (b : Cursor) (bounds : Path) (stack : Stack) (depth : ℕ) (c : Bool) :
    PathBase.canGo db (Cursor.notPath b bounds stack depth) c =
      (PathBase.canGo db bounds c &&
        !(!c && decide (stack.count = 1) && (decide (depth = 0) && PathBase.canGo db b c))) := by
  cases c
  · show (if depth = 0 ∧ stack.count = 1 ∧ b.canGoLeft db = true then false
      else bounds.canGoLeft db) =
      (bounds.canGoLeft db &&
        !(true && decide (stack.count = 1) && (decide (depth = 0) && b.canGoLeft db)))
    by_cases h1 : depth = 0 <;> by_cases h2 : stack.count = 1 <;> cases b.canGoLeft db <;>
      simp [h1, h2]
  · show bounds.canGoRight db = (bounds.canGoRight db && !false)
    simp

theorem go_notPath (b : Cursor) (bounds : Path) (stack : Stack) (depth : ℕ) (c : Bool) :
    PathBase.go db (Cursor.notPath b bounds stack depth) c =
      let follows := decide (depth = 0) && PathBase.canGo db b c
      let p := if follows = true then PathBase.go db b c else (b, db)
      (.notPath p.1 (PathBase.go p.2 bounds c).1 (stack.push_back c) (if follows = true then depth
        else depth + 1),
        (PathBase.go p.2 bounds c).2) := by
  cases c <;> rfl

variable {RP : Path → List Bool → Prop}

theorem notPath_canGo (hA : TracksOn P db A RP) (hB : TracksOn P db B RB)
    (hground : ∀ w, A.mem w = true → Grounded w)
    {c : Cursor} {w : List Bool} (h : NotAt A B RP RB c w) (hw : (A.diff B).mem w = true) (hs : P w)
    (bit : Bool) :
    PathBase.canGo db c bit = (A.diff B).mem (w ++ [bit]) := by
  obtain ⟨b, bounds, stack, u, v, rfl, rfl, hb, ha, hst, hm⟩ := h
  rw [canGo_notPath, hA.canGo ha hs, hb.follows_eq hB hs List.length_eq_zero_iff, hst.count]
  cases bit with
  | false =>
    rw [BitTree.mem_diff_concat_false (hground _ hm) hw]
    simp
  | true =>
    rw [BitTree.mem_diff_concat_true hw]
    simp

theorem notPath_go (hA : TracksOn P db A RP) (hB : TracksOn P db B RB) {c : Cursor} {w : List Bool}
    (h : NotAt A B RP RB c w) (hs : P w) (bit : Bool) (hm : (A.diff B).mem (w ++ [bit]) = true) :
    (PathBase.go db c bit).2 = db ∧ NotAt A B RP RB (PathBase.go db c bit).1 (w ++ [bit]) := by
  obtain ⟨b, bounds, stack, u, v, rfl, rfl, hb, ha, hst, -⟩ := h
  have hma : A.mem (u ++ v ++ [bit]) = true := (BitTree.mem_diff hm).1
  obtain ⟨h1, h2⟩ := hA.go ha hs bit hma
  obtain ⟨b', hgo, ht, hf⟩ := hb.go hB hs bit
  rw [go_notPath, hb.follows_eq hB hs List.length_eq_zero_iff]
  simp only [hgo, h1]
  refine ⟨trivial, ?_⟩
  by_cases hmb : B.mem (u ++ v ++ [bit]) = true
  · obtain ⟨rfl, hb'⟩ := ht hmb
    rw [if_pos hmb]
    exact ⟨b', _, _, u ++ [] ++ [bit], [], rfl, by simp, hb', h2, hst.push_back bit, hma⟩
  · rw [if_neg hmb]
    exact ⟨b', _, _, u, v ++ [bit], by simp, by simp, hf (by simpa using hmb), h2,
      hst.push_back bit, hma⟩

theorem notPath_goUp (hA : TracksOn P db A RP) (hB : TracksOn P db B RB)
    (hground : ∀ w, A.mem w = true → Grounded w)
    {c : Cursor} {w : List Bool} {bit : Bool} (h : NotAt A B RP RB c (w ++ [bit])) (hs : P w) :
    NotAt A B RP RB (PathBase.goUp db c) w := by
  obtain ⟨b, bounds, stack, u, v, rfl, he, hb, ha, hst, hm⟩ := h
  have hpos : bit = true ∨ 0 < height 0 w := by
    cases bit with
    | true => exact Or.inl rfl
    | false => exact Or.inr (hground _ hm w List.prefix_rfl)
  have hup := hA.goUp ha hs
  have hpop := hst.pop_back hpos
  show NotAt A B RP RB (Cursor.goUp db (.notPath b bounds stack v.length)) w
  rw [Cursor.goUp]
  by_cases hv : v = []
  · obtain ⟨-, hb'⟩ := hb.goUp hB he hs hv
    subst hv
    rw [if_pos (by simp)]
    exact ⟨_, _, _, w, [], rfl, by simp, hb', hup, hpop, A.closed hm⟩
  · obtain ⟨z, rfl, hz, hb'⟩ := hb.exists_up he hv
    rw [if_neg (by simp)]
    rw [List.length_append, List.length_singleton, Nat.add_sub_cancel]
    exact ⟨_, _, _, u, z, rfl, hz, hb', hup, hpop, A.closed hm⟩

theorem notPath_tracks (hA : TracksOn P db A RP) (hB : TracksOn P db B RB)
    (hground : ∀ w, A.mem w = true → Grounded w) :
    TracksOn P db (A.diff B) fun c w => NotAt A B RP RB c w ∧ (A.diff B).mem w = true where
  canGo h hs := notPath_canGo hA hB hground h.1 h.2 hs
  go h hs bit hm := by
    obtain ⟨h1, h2⟩ := notPath_go hA hB h.1 hs bit hm
    exact ⟨h1, h2, hm⟩
  goUp h hs := ⟨notPath_goUp hA hB hground h.1 hs, (A.diff B).closed h.2⟩
  isDeadEnd h hs := by
    refine isDeadEnd_of_canGo ?_ (notPath_canGo hA hB hground h.1 h.2 hs)
    obtain ⟨⟨b, bounds, stack, u, v, rfl, -⟩, -⟩ := h
    rfl

end BeeFish
