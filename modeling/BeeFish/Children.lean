/-
# Walking over children while they are deleted

The positions below a spot are met in their numeric order, since a smaller
number is written to the left of a larger one (`rightOf_encode`). A program may
delete what the walk has met: the walk then stands on what is left of a deleted
branch, goes up its links to a branch that is still there, and finds the next
child to the right (`Trail`, `meets_nextNow`).

Key definitions: `File.below`, `File.Trail`, `File.Cursor`, `Spot.Lists`.
-/
import BeeFish.File
import BeeFish.Footing
import BeeFish.Order

namespace BeeFish

open BitCode BitTree

/-! ### The next key -/

section

variable {σ : Type} [PathBase σ] {db : Database} {T : BitTree} {R : σ → List Bool → Prop}
    {c : Walk σ} {w : List Bool}

/-- The keys that a walk at `w` has before it. -/
def Ahead (w k : List Bool) : Prop := w = [] ∨ RightOf w k

/-- `next` comes to the first of the keys that are ahead. -/
theorem next_first (hT : Tracks db T R) (h : c.At db R w) (hw : w = [] ∨ IsCode w) :
    ∃ r, Returns (Walk.next · c) r ∧
    (r.1 = false ∧ r.2.At db R [] ∧ (∀ k ∈ T.keys, ¬ Ahead w k) ∨
      ∃ k ∈ T.keys, r.1 = true ∧ Ahead w k ∧ r.2.At db R k ∧ ∀ j ∈ T.keys, Ahead w j → j = k ∨
        k < j) := by
  obtain ⟨ks, hmem, hsorted, r, hr, hl⟩ : ∃ ks : List (List Bool),
    (∀ k, k ∈ ks ↔ k ∈ T.keys ∧ Ahead w k) ∧
      ks.Pairwise (· < ·) ∧ ∃ r, Returns (Walk.next · c) r ∧ Lands T db R ks r := by
    rcases hw with rfl | hw
    · exact ⟨T.keys, fun k => by simp [Ahead], T.sorted_keys, next_lands_start hT h⟩
    · refine ⟨T.later w, fun k => ?_, T.sorted_later (Or.inr hw), next_lands hT hw h⟩
      rw [T.mem_later (Or.inr hw), Ahead, or_iff_right hw.ne_nil]
  refine ⟨r, hr, ?_⟩
  cases ks with
  | nil => exact Or.inl ⟨hl.1, hl.2, fun k hk ha => by simpa using (hmem k).mpr ⟨hk, ha⟩⟩
  | cons k ks =>
    obtain ⟨hfound, -, hat, -⟩ := hl
    obtain ⟨hk, ha⟩ := (hmem k).mp List.mem_cons_self
    refine Or.inr ⟨k, hk, hfound, ha, hat, fun j hj haj => ?_⟩
    rcases List.mem_cons.mp ((hmem j).mpr ⟨hj, haj⟩) with rfl | hin
    · exact Or.inl rfl
    · exact Or.inr ((List.pairwise_cons.mp hsorted).1 j hin)

end

/-! ### Below a spot -/

namespace File

variable {F F' : File} {s t : Spot} {i : ℕ}

/-- The tree of bits below a spot. -/
def below (F : File) (s : Spot) (hs : (F.content.place s).isSome) : BitTree :=
  F.rep.tree F.refines (show ((F.layout (bitsOf s.keys)).map Node.value).isSome by simpa [content,
    node] using hs)

theorem mem_below (hs : (F.content.place s).isSome) (w : List Bool) :
    (F.below s hs).mem w = (F.layout (bitsOf s.keys ++ w)).isSome := rfl

/-- A walk below the spot stands on the branch at `w`, or on what is left of
it if it was deleted. -/
inductive Trail (F : File) (s : Spot) : ℕ → List Bool → Prop
  | live {w n} : F.layout (bitsOf s.keys ++ w) = some n → Trail F s n.place w
  | dead {w b i parent} : F.heap i = some (.branch (.new parent)) → F.layout.Gone i →
      F.layout (bitsOf s.keys ++ (w ++ [b])) = none → Trail F s parent w → Trail F s i (w ++ [b])

namespace Trail

variable {w : List Bool}

/-- It is the footing that the walk has in the trie. -/
theorem iff_footing : Trail F s i w ↔ Footing F.heap F.layout (bitsOf s.keys) i w := by
  constructor
  · intro h
    induction h with
    | live hn => exact .live hn
    | dead hi hg hnone _ ih => exact .dead hi hg hnone ih
  · intro h
    induction h with
    | live hn => exact .live hn
    | dead hi hg hnone _ ih => exact .dead hi hg hnone ih

/-- The walk goes where the tree of the file goes. -/
theorem tracks (hs : (F.content.place s).isSome) :
    Tracks F.db (F.below s hs) fun (p : Path) w => Trail F s p.index w := by
  simp only [iff_footing]
  exact Footing.tracks F.rep F.refines _

/-- What stands below a spot where it stood stands on the branches where it
stood. -/
theorem keeps_node (he : View.Evolves F F')
    (hkeep : ∀ t j, s.Under t → F'.content.place t = some j → F.content.place t = some j)
    {m : Node} (hm : F'.layout (bitsOf s.keys ++ w) = some m) :
    ∃ n, F.layout (bitsOf s.keys ++ w) = some n ∧ n.place = m.place := by
  obtain ⟨ks, hks, hp⟩ := F'.refines.present hm
  have hks' : (F'.layout (bitsOf ks)).isSome := Option.isSome_map ▸ hks
  obtain ⟨t, rfl⟩ := F'.spots ks hks'
  obtain ⟨mt, hmt⟩ := Option.isSome_iff_exists.mp hks'
  have hst : s.Under t := bitsOf_isPrefix.mp ((List.prefix_append _ w).trans hp)
  obtain ⟨nt, hnt, hplace⟩ := exists_node (hkeep t mt.place hst (place_of_node hmt))
  obtain ⟨n, hn⟩ := F.rep.of_isPrefix hnt hp
  rcases he.2.new hm with ⟨n', hn', hsame⟩ | hge
  · exact ⟨n', hn', hsame.symm⟩
  · -- it stands no later than the spot below it, so it is not new
    have h1 := F'.rep.place_le hm hmt hp
    have h2 := F.rep.place_lt hnt
    omega

/-- A walk goes on below a spot while what stands there gets less. -/
theorem evolves (he : View.Evolves F F') (hs : (F'.content.place s).isSome)
    (hkeep : ∀ t j, s.Under t → F'.content.place t = some j → F.content.place t = some j)
    (h : Trail F s i w) :
    Trail F' s i w := by
  obtain ⟨m, hm, -⟩ := exists_node (Option.some_get hs).symm
  rw [iff_footing] at h ⊢
  apply h.evolves he.2 F.rep
  · rw [show F'.layout (bitsOf s.keys) = some m from hm]
    rfl
  · exact fun w m hm => keeps_node he hkeep hm

end Trail

/-- A walk over what is below a spot, at `w`; the file may have changed since
its last step. -/
structure Cursor (F : File) (s : Spot) (c : Walk Path) (w : List Bool) : Prop where
  trail : Trail F s c.path.index w
  stack : StackAt w c.stack

theorem Cursor.evolves {c : Walk Path} {w : List Bool} (he : View.Evolves F F')
    (hs : (F'.content.place s).isSome)
    (hkeep : ∀ t j, s.Under t → F'.content.place t = some j → F.content.place t = some j)
    (h : Cursor F s c w) :
    Cursor F' s c w := ⟨h.trail.evolves he hs hkeep, h.stack⟩

/-- A walk that starts at the spot. -/
theorem Cursor.start {p : Path} (hp : F.content.place s = some p.index) (db : Database) :
    Cursor F s ⟨db, p, .empty⟩ [] := by
  obtain ⟨n, hn, he⟩ := node_of_place hp
  refine ⟨?_, stackAt_empty⟩
  show Trail F s p.index []
  rw [he]
  exact .live (by rwa [List.append_nil])

end File

/-! ### The children -/

/-- One key below `s` stand the spots `child`, by numbers. -/
structure Spot.Lists (s : Spot) (child : ℕ → Spot) : Prop where
  up : ∀ i, (child i).up = some (s, .of i)
  all : ∀ {t key}, t.up = some (s, key) → ∃ i : ℕ, t = child i

namespace Spot.Lists

theorem children (a : List ℕ) : Lists (.node a .children) fun i => .node (i :: a) .self where
  up _ := rfl
  all {t key} h := by
    unfold Spot.up at h
    split at h <;> simp_all

theorem pages (a : List ℕ) : Lists (.node a .value) fun i => .node a (.page i) where
  up i := by cases a <;> rfl
  all {t key} h := by
    unfold Spot.up at h
    split at h <;> simp_all

end Spot.Lists

section

variable {F : File} {s : Spot} {child : ℕ → Spot}

/-- The keys below a spot are the numbers of its children. -/
theorem File.mem_keys_below (hl : s.Lists child) (hs : (F.content.place s).isSome) {k : List Bool} :
    k ∈ (F.below s hs).keys ↔ ∃ i, k = encode i ∧ (F.content.place (child i)).isSome := by
  rw [(F.below s hs).mem_keys, F.mem_below hs]
  have hchild : ∀ i, (F.content.place (child i)).isSome ↔
    (F.layout (bitsOf s.keys ++ encode i)).isSome := by
    intro i
    rw [show bitsOf s.keys ++ encode i = bitsOf
      (child i).keys from (Spot.bitsOf_keys_up (hl.up i)).symm]
    simp [File.content, File.node]
  constructor
  · rintro ⟨hcode, hsome⟩
    obtain ⟨n, hn⟩ := Option.isSome_iff_exists.mp hsome
    obtain ⟨ks, hks, hp⟩ := F.refines.present hn
    obtain ⟨t, rfl⟩ := F.spots ks (Option.isSome_map ▸ hks)
    obtain ⟨js, hjs⟩ := bitsOf_isPrefix.mp ((List.prefix_append _ k).trans hp)
    rw [← hjs, bitsOf_append, List.prefix_append_right_inj] at hp
    cases js with
    | nil => exact absurd (List.prefix_nil.mp hp) hcode.ne_nil
    | cons key js =>
      have hbits : bitsOf (key :: js) = key.bits ++ bitsOf js := by simp [bitsOf]
      rw [hbits] at hp
      -- a code is no beginning of another one
      have hk : k = key.bits := by
        rcases List.prefix_or_prefix_of_prefix hp
          (List.prefix_append key.bits (bitsOf js)) with h | h
        · exact hcode.eq_of_isPrefix key.isCode h
        · exact (key.isCode.eq_of_isPrefix hcode h).symm
      have hkeys : s.keys ++ [key] <+: t.keys := ⟨js, by rw [← hjs]; simp⟩
      obtain ⟨u, hu⟩ := Spot.exists_of_isPrefix hkeys
      have hup : u.up = some (s, key) := by
        cases huu : u.up with
        | none =>
          obtain rfl := Spot.eq_root_of_up huu
          simp [Spot.keys] at hu
        | some r =>
          rw [Spot.keys_up (t := r.1) (k := r.2) huu] at hu
          obtain ⟨h1, h2⟩ := List.append_inj' hu rfl
          exact congrArg some (Prod.ext (Spot.keys_injective h1) (List.cons.inj h2).1)
      obtain ⟨i, rfl⟩ := hl.all hup
      obtain ⟨-, rfl⟩ := Prod.mk.inj (Option.some.inj (hup.symm.trans (hl.up i)))
      refine ⟨i, hk, (hchild i).mpr ?_⟩
      rwa [hk] at hsome
  · rintro ⟨i, rfl, hi⟩
    exact ⟨LawfulEncoded.isCode i, (hchild i).mp hi⟩

/-- `next` comes to the first of the children that the walk has before it. -/
theorem File.Cursor.meets_nextNow (hl : s.Lists child) (hs : (F.content.place s).isSome)
    {c : Walk Path} {w : List Bool}
    (hc : File.Cursor F s c w) (hw : w = [] ∨ IsCode w) :
    Meets (fun fuel => (c.nextNow fuel : DatabaseM (Option ℕ × Walk Path))) F fun r F' => F' = F ∧
      match r.1 with
      | none => ∀ i, (F.content.place (child i)).isSome → ¬ Ahead w (encode i)
      | some i =>
        (F.content.place (child i)).isSome ∧ Ahead w (encode i) ∧ File.Cursor F s r.2 (encode i) ∧
          ∀ j, (F.content.place (child j)).isSome → Ahead w (encode j) → i ≤ j := by
  have hat : Walk.At F.db (fun (p : Path) w => File.Trail F s p.index w) { c with db := F.db } w :=
    ⟨rfl, hc.trail, hc.stack⟩
  -- the file stays in the walk
  have hitem : ∀ {r : Option ℕ × Walk Path},
    Returns (fun fuel => Walk.nextItem fuel { c with db := F.db }) r → r.2.db = F.db →
      Returns (fun fuel => (c.nextNow fuel : DatabaseM (Option ℕ × Walk Path)).run F.db)
        (r, F.db) := by
    intro r hr hdb
    have hmap := hr.map fun r : Option ℕ × Walk Path => ((r.1, r.2), r.2.db)
    rwa [hdb] at hmap
  obtain ⟨⟨found, c'⟩, hr, hnext⟩ := next_first (File.Trail.tracks hs) hat hw
  rcases hnext with ⟨rfl, hat', hnone⟩ | ⟨k, hk, rfl, hahead, hat', hfirst⟩
  · refine ⟨(none, c'), F, hitem (hr.bind_some rfl) hat'.db, View.refl F, rfl, ?_⟩
    intro i hi
    exact hnone _ ((File.mem_keys_below hl hs).mpr ⟨i, rfl, hi⟩)
  · obtain ⟨i, rfl, hi⟩ := (File.mem_keys_below hl hs).mp hk
    obtain ⟨c₁, hread, hat₁⟩ := readItem_of_at hat'
    refine ⟨(some i, c₁), F, hitem (hr.bind_some hread) hat₁.db, View.refl F, rfl, hi, hahead,
      ⟨hat₁.path, hat₁.stack⟩,
      fun j hj haj => ?_⟩
    rcases hfirst _ ((File.mem_keys_below hl hs).mpr ⟨j, rfl, hj⟩) haj with he | hlt
    · exact (encode_injective he).ge
    · exact (encode_lt.mp hlt).le

end

end BeeFish
